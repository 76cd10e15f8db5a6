import LispDos.Verification.Fat16.Allocation
import LispDos.Verification.Fat16.Directory

/-! # The chain loop of the reader

Reading a chain that is long enough stores the bytes of its sectors at the offsets
`0, 1, …` of the buffer, each once. What is read depends on the clusters of the chain
only. -/

namespace LispDos.Fat16

open Foundation

variable {b : Bpb} {d d' : Disk} {size : ℕ} {l : List ℕ}

/-- Byte `y` of the sectors of the clusters `l`, in order. -/
def fileByte (b : Bpb) (d : Disk) (l : List ℕ) (y : ℕ) : UInt8 :=
  (d (b.clusterSector (l.getD (y / clusterBytes b) 0) + y % clusterBytes b / 512)).byte (y % 512)

theorem readSectors_eq (d : Disk) (size n sector r : ℕ) (hr : r ≤ size) :
    readSectors d size n sector r =
      ((List.range' r (min size (r + 512 * n) - r)).map fun x =>
        (x, (d (sector + (x - r) / 512)).byte ((x - r) % 512)), min size (r + 512 * n)) := by
  induction n generalizing sector r with
  | zero => simp [readSectors, hr]
  | succ n ih =>
      have hfirst : ∀ m ≤ 512, (List.range m).map (fun k => (r + k, (d sector).byte k)) =
          (List.range' r m).map fun x =>
            (x, (d (sector + (x - r) / 512)).byte ((x - r) % 512)) := by
        intro m hm
        rw [List.range'_eq_map_range, List.map_map]
        apply List.map_congr_left
        intro k hk
        have hk := List.mem_range.mp hk
        have h₁ : (r + k - r) / 512 = 0 := by omega
        have h₂ : (r + k - r) % 512 = k := by omega
        simp only [Function.comp_apply, h₁, h₂, Nat.add_zero]
      simp only [readSectors, ataReadSector]
      by_cases hend : size ≤ r + min (size - r) 512
      · have hcopy : min (size - r) 512 = size - r := by omega
        have hmin : min size (r + 512 * (n + 1)) = size := by omega
        rw [if_pos hend, hcopy, hmin, hfirst _ (by omega)]
        congr 1
        omega
      · have hcopy : min (size - r) 512 = 512 := by omega
        rw [if_neg hend, hcopy, ih _ _ (by omega), hfirst _ le_rfl]
        have hmin : min size (r + 512 + 512 * n) = min size (r + 512 * (n + 1)) := by
          congr 1
          omega
        rw [hmin]
        have hlen : min size (r + 512 * (n + 1)) - r =
            512 + (min size (r + 512 * (n + 1)) - (r + 512)) := by omega
        have hrest : (List.range' (r + 512) (min size (r + 512 * (n + 1)) - (r + 512))).map
              (fun x => (x, (d (sector + 1 + (x - (r + 512)) / 512)).byte ((x - (r + 512)) % 512))) =
            (List.range' (r + 512) (min size (r + 512 * (n + 1)) - (r + 512))).map
              (fun x => (x, (d (sector + (x - r) / 512)).byte ((x - r) % 512))) := by
          apply List.map_congr_left
          intro x hx
          have hx := (List.mem_range'_1.mp hx).1
          have h₁ : sector + 1 + (x - (r + 512)) / 512 = sector + (x - r) / 512 := by omega
          have h₂ : (x - (r + 512)) % 512 = (x - r) % 512 := by omega
          rw [h₁, h₂]
        rw [hlen, ← List.range'_append_1, List.map_append, hrest]

theorem fileByte_cons_of_lt (c : ℕ) (l : List ℕ) {y : ℕ} (hy : y < clusterBytes b) :
    fileByte b d (c :: l) y = (d (b.clusterSector c + y / 512)).byte (y % 512) := by
  rw [fileByte, Nat.div_eq_of_lt hy, Nat.mod_eq_of_lt hy]
  rfl

theorem fileByte_cons_of_ge (hpos : 0 < clusterBytes b) (c : ℕ) (l : List ℕ) {y : ℕ}
    (hy : clusterBytes b ≤ y) : fileByte b d (c :: l) y = fileByte b d l (y - clusterBytes b) := by
  have hdiv : y / clusterBytes b = (y - clusterBytes b) / clusterBytes b + 1 := by
    rw [Nat.div_eq_sub_div hpos hy]
  have hmod : y % clusterBytes b = (y - clusterBytes b) % clusterBytes b := by
    rw [Nat.mod_eq_sub_mod hy]
  have hsec : y % 512 = (y - clusterBytes b) % 512 := by
    simp only [clusterBytes] at hy ⊢
    omega
  rw [fileByte, hdiv, hmod, hsec, List.getD_cons_succ]
  rfl

/-- A chain with enough clusters is read completely. -/
theorem readLoop_eq (hg : Geometry b) {c e : ℕ} (h : ClusterChain b d c l e) (fuel r : ℕ)
    (hfuel : l.length < fuel) (hr : r ≤ size) (hlen : size - r ≤ clusterBytes b * l.length) :
    readLoop b d size fuel c r =
      some ((List.range' r (size - r)).map fun x => (x, fileByte b d l (x - r))) := by
  have hspc := hg.spc
  have hpos : 0 < clusterBytes b := by
    simp only [clusterBytes]
    omega
  induction l generalizing c fuel r with
  | nil =>
      cases fuel with
      | zero => simp at hfuel
      | succ fuel =>
          have hc : ¬ IsCluster c := h.nil_iff.mp rfl
          have hzero : size - r = 0 := by simpa using hlen
          simp [readLoop, hc, hzero]
  | cons a l ih =>
      cases fuel with
      | zero => simp at hfuel
      | succ fuel =>
          cases h with
          | step hc h =>
              have hbytes : 512 * b.spc = clusterBytes b := rfl
              rw [List.length_cons, Nat.mul_succ] at hlen
              simp only [readLoop, hc, if_true, readSectors_eq _ _ _ _ _ hr, hbytes]
              by_cases hend : size ≤ min size (r + clusterBytes b)
              · have hmin : min size (r + clusterBytes b) = size := by omega
                rw [if_pos hend, hmin]
                congr 1
                apply List.map_congr_left
                intro x hx
                have hx := List.mem_range'_1.mp hx
                rw [fileByte_cons_of_lt _ _ (by omega)]
              · have hmin : min size (r + clusterBytes b) = r + clusterBytes b := by omega
                rw [if_neg hend, hmin, ih h fuel (r + clusterBytes b) (by simpa using hfuel)
                  (by omega) (by omega), Option.map_some]
                have hsplit : size - r = clusterBytes b + (size - (r + clusterBytes b)) := by omega
                rw [hsplit, ← List.range'_append_1, List.map_append, Nat.add_sub_cancel_left]
                congr 2
                · apply List.map_congr_left
                  intro x hx
                  have hx := List.mem_range'_1.mp hx
                  rw [fileByte_cons_of_lt _ _ (by omega)]
                · apply List.map_congr_left
                  intro x hx
                  have hx := List.mem_range'_1.mp hx
                  rw [fileByte_cons_of_ge hpos _ _ (by omega), Nat.sub_sub]

theorem length_chain_le {c e : ℕ} (h : ClusterChain b d c l e) : l.length ≤ 0xFFF0 := by
  have hsub : l.toFinset ⊆ Finset.range 0xFFF0 := by
    intro x hx
    have := (h.go_of_mem x (List.mem_toFinset.mp hx)).2
    exact Finset.mem_range.mpr (by omega)
  have hcard := Finset.card_le_card hsub
  rwa [List.toFinset_card_of_nodup h.nodup, Finset.card_range] at hcard

theorem readChain_eq (hg : Geometry b) {c e : ℕ} (h : ClusterChain b d c l e)
    (hlen : size ≤ clusterBytes b * l.length) :
    readChain b d c size =
      some ((List.range size).map fun x => (x, fileByte b d l x)) := by
  have hle := length_chain_le h
  rw [readChain, readLoop_eq hg h _ 0 (by omega) (Nat.zero_le _) (by simpa using hlen),
    List.range_eq_range']
  simp

/-! ## What a read depends on -/

theorem readSectors_congr (size n sector r : ℕ)
    (h : ∀ s, sector ≤ s → s < sector + n → d' s = d s) :
    readSectors d' size n sector r = readSectors d size n sector r := by
  induction n generalizing sector r with
  | zero => rfl
  | succ n ih =>
      simp only [readSectors, ataReadSector, h sector le_rfl (by omega),
        ih (sector + 1) _ (fun s h₁ h₂ => h s (by omega) (by omega))]

theorem readLoop_congr {c e : ℕ} (h : ClusterChain b d c l e) (fuel r : ℕ)
    (hentry : ∀ x ∈ l, fat16GetFatEntry b d' x = fat16GetFatEntry b d x)
    (hdata : ∀ x ∈ l, ∀ s, InCluster b x s → d' s = d s) :
    readLoop b d' size fuel c r = readLoop b d size fuel c r := by
  induction l generalizing c fuel r with
  | nil =>
      cases fuel with
      | zero => rfl
      | succ fuel =>
          have hc : ¬ IsCluster c := h.nil_iff.mp rfl
          simp [readLoop, hc]
  | cons a l ih =>
      cases fuel with
      | zero => rfl
      | succ fuel =>
          cases h with
          | step hc h =>
              have hsec := readSectors_congr size b.spc (b.clusterSector a) r
                (fun s h₁ h₂ => hdata a (by simp) s ⟨h₁, h₂⟩)
              have hrest := fun r => ih h fuel r (fun x hx => hentry x (by simp [hx]))
                (fun x hx => hdata x (by simp [hx]))
              simp only [readLoop, hc, if_true, hsec, hentry a (by simp), hrest]

/-- Reading a chain depends on its entries and its sectors only. -/
theorem readChain_congr {c e : ℕ} (h : ClusterChain b d c l e)
    (hentry : ∀ x ∈ l, fat16GetFatEntry b d' x = fat16GetFatEntry b d x)
    (hdata : ∀ x ∈ l, ∀ s, InCluster b x s → d' s = d s) :
    readChain b d' c size = readChain b d c size :=
  readLoop_congr h _ _ hentry hdata

/-! ## The caller's buffer -/

/-- The stores of the chain loop stay below the size of the file, on any disk. -/
theorem readLoop_stores {fuel c r : ℕ} {stores : List Store} (hr : r ≤ size)
    (h : readLoop b d size fuel c r = some stores) : ∀ s ∈ stores, s.1 < size := by
  induction fuel generalizing c r stores with
  | zero => cases h
  | succ fuel ih =>
      have hcluster : ∀ s ∈ (readSectors d size b.spc (b.clusterSector c) r).1, s.1 < size := by
        rw [readSectors_eq _ _ _ _ _ hr]
        intro s hs
        obtain ⟨x, hx, rfl⟩ := List.mem_map.mp hs
        have := (List.mem_range'_1.mp hx).2
        simp only
        omega
      have hbytes : (readSectors d size b.spc (b.clusterSector c) r).2 ≤ size := by
        rw [readSectors_eq _ _ _ _ _ hr]
        exact Nat.min_le_left _ _
      simp only [readLoop] at h
      split at h
      · split at h
        · rw [← Option.some_inj.mp h]
          exact hcluster
        · obtain ⟨rest, hrest, rfl⟩ := Option.map_eq_some_iff.mp h
          rw [List.forall_mem_append]
          exact ⟨hcluster, ih hbytes hrest⟩
      · rw [← Option.some_inj.mp h]
        simp

/-- The clusters of the chain bound the stores as well. -/
theorem readLoop_stores_chain {c e : ℕ} (h : ClusterChain b d c l e) {fuel r : ℕ}
    {stores : List Store} (hr : r ≤ size) (hloop : readLoop b d size fuel c r = some stores) :
    ∀ s ∈ stores, s.1 < r + clusterBytes b * l.length := by
  induction l generalizing c fuel r stores with
  | nil =>
      cases fuel with
      | zero => cases hloop
      | succ fuel =>
          have hc : ¬ IsCluster c := h.nil_iff.mp rfl
          simp only [readLoop, hc, if_false] at hloop
          rw [← Option.some_inj.mp hloop]
          simp
  | cons a l ih =>
      cases fuel with
      | zero => cases hloop
      | succ fuel =>
          cases h with
          | step hc h =>
              have hbytes : 512 * b.spc = clusterBytes b := rfl
              rw [List.length_cons, Nat.mul_succ]
              have hcluster : ∀ s ∈ (readSectors d size b.spc (b.clusterSector a) r).1,
                  s.1 < r + (clusterBytes b * l.length + clusterBytes b) := by
                rw [readSectors_eq _ _ _ _ _ hr]
                intro s hs
                obtain ⟨x, hx, rfl⟩ := List.mem_map.mp hs
                have := (List.mem_range'_1.mp hx).2
                simp only
                omega
              simp only [readLoop, hc, if_true] at hloop
              split at hloop
              · rw [← Option.some_inj.mp hloop]
                exact hcluster
              · obtain ⟨rest, hrest, rfl⟩ := Option.map_eq_some_iff.mp hloop
                rw [readSectors_eq _ _ _ _ _ hr, hbytes] at hrest
                rw [List.forall_mem_append]
                refine ⟨hcluster, fun s hs => ?_⟩
                have := ih h (Nat.min_le_left _ _) hrest s hs
                omega

/-- With at least one sector in a cluster each round copies something, so the chain loop ends
on any disk. -/
theorem readLoop_isSome (hspc : 0 < b.spc) {fuel c r : ℕ} (hr : r ≤ size)
    (hfuel : size - r < fuel) : (readLoop b d size fuel c r).isSome = true := by
  induction fuel generalizing c r with
  | zero => omega
  | succ fuel ih =>
      simp only [readLoop, readSectors_eq _ _ _ _ _ hr]
      split
      · split
        · rfl
        · rw [Option.isSome_map]
          exact ih (by omega) (by omega)
      · rfl

theorem fat16ReadFile_isSome (hspc : 0 < b.spc) (filename : List UInt8) :
    (fat16ReadFile b d filename).isSome = true := by
  rw [fat16ReadFile_eq]
  cases lookup b d (formatFatName filename) with
  | none => rfl
  | some k =>
      rw [Option.elim_some, Option.isSome_map]
      exact readLoop_isSome hspc (Nat.zero_le _) (by omega)

/-- The reader returns the size that is reported for the file. -/
theorem fat16ReadFile_result {filename : List UInt8} {result : ℤ} {stores : List Store}
    (h : fat16ReadFile b d filename = some (result, stores)) :
    result = toInt32 (fat16GetFileSize b d filename) := by
  rw [fat16ReadFile_eq] at h
  rw [fat16GetFileSize_eq]
  cases hlookup : lookup b d (formatFatName filename) with
  | none =>
      rw [hlookup, Option.elim_none] at h
      have hzero : toInt32 0 = 0 := by decide
      rw [Option.elim_none, hzero]
      exact (Prod.mk.inj (Option.some_inj.mp h)).1.symm
  | some k =>
      rw [hlookup, Option.elim_some] at h
      obtain ⟨_, _, heq⟩ := Option.map_eq_some_iff.mp h
      rw [Option.elim_some]
      exact (Prod.mk.inj heq).1.symm

/-- The reader fills no more of the buffer than the size that is reported for the file. -/
theorem fat16ReadFile_stores {filename : List UInt8} {result : ℤ} {stores : List Store}
    (h : fat16ReadFile b d filename = some (result, stores)) :
    ∀ s ∈ stores, s.1 < fat16GetFileSize b d filename := by
  rw [fat16ReadFile_eq] at h
  rw [fat16GetFileSize_eq]
  cases hlookup : lookup b d (formatFatName filename) with
  | none =>
      rw [hlookup, Option.elim_none] at h
      obtain ⟨_, rfl⟩ := Prod.mk.inj (Option.some_inj.mp h)
      simp
  | some k =>
      rw [hlookup, Option.elim_some] at h
      obtain ⟨stores', hchain, heq⟩ := Option.map_eq_some_iff.mp h
      obtain ⟨_, rfl⟩ := Prod.mk.inj heq
      exact readLoop_stores (Nat.zero_le _) hchain

/-- A buffer is unchanged where nothing is stored. -/
theorem applyStores_of_forall_ne (out : ℕ → UInt8) {stores : List Store} {i : ℕ}
    (h : ∀ s ∈ stores, s.1 ≠ i) : applyStores out stores i = out i := by
  induction stores generalizing out with
  | nil => rfl
  | cons s stores ih =>
      have hrest := ih (Function.update out s.1 s.2) fun t ht => h t (List.mem_cons_of_mem _ ht)
      rw [Function.update_of_ne (h s (by simp)).symm] at hrest
      exact hrest

/-- Stores at the offsets `0, 1, …, n - 1` fill exactly that part of the buffer. -/
theorem applyStores_range (out f : ℕ → UInt8) (n i : ℕ) :
    applyStores out ((List.range n).map fun x => (x, f x)) i = if i < n then f i else out i := by
  induction n with
  | zero => simp [applyStores]
  | succ n ih =>
      simp only [applyStores] at ih ⊢
      rw [List.range_succ, List.map_append, List.foldl_append]
      simp only [List.map_cons, List.map_nil, List.foldl_cons, List.foldl_nil]
      by_cases hi : i = n
      · subst i
        rw [Function.update_self, if_pos (by omega)]
      · rw [Function.update_of_ne hi, ih]
        by_cases hlt : i < n
        · rw [if_pos hlt, if_pos (by omega)]
        · rw [if_neg hlt, if_neg (by omega)]

end LispDos.Fat16
