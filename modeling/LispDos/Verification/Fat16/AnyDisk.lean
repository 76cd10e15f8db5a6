import LispDos.Verification.Fat16.RoundTrip

/-! # Reading from any disk

The reader follows the links of the table wherever they lead. On a disk with arbitrary
contents it still fills the buffer from the front, no further than the recorded size; it
returns that size also when the walk ends before. -/

namespace LispDos.Fat16

open Foundation

variable {b : Bpb} {d : Disk} {filename : List UInt8} {size c m : ℕ} {stores : List Store}

/-! ## Walks -/

/-- The value that the table leads to from `c` in `i` steps. -/
def walk (b : Bpb) (d : Disk) (c i : ℕ) : ℕ := (fat16GetFatEntry b d)^[i] c

/-- Byte `y` of the walked clusters. -/
def walkByte (b : Bpb) (d : Disk) (c y : ℕ) : UInt8 :=
  (d (b.clusterSector (walk b d c (y / clusterBytes b)) + y % clusterBytes b / 512)).byte (y % 512)

theorem walk_succ (b : Bpb) (d : Disk) (c i : ℕ) :
    walk b d c (i + 1) = fat16GetFatEntry b d (walk b d c i) :=
  Function.iterate_succ_apply' _ _ _

/-- A walk that leaves the data clusters is a chain. -/
theorem exists_chain_of_stop {i : ℕ} (h : ¬ IsCluster (walk b d c i)) :
    ∃ l e, ClusterChain b d c l e := by
  induction i generalizing c with
  | zero => exact ⟨[], c, .stop h⟩
  | succ i ih =>
      by_cases hc : IsCluster c
      · obtain ⟨l, e, hl⟩ := ih (c := fat16GetFatEntry b d c) h
        exact ⟨c :: l, e, .step hc hl⟩
      · exact ⟨[], c, .stop hc⟩

/-! ## The chain loop -/

/-- The loop ends on every chain, also when its rounds copy nothing. -/
theorem readLoop_isSome_of_chain {l : List ℕ} {e fuel r : ℕ} (h : ClusterChain b d c l e)
    (hfuel : l.length < fuel) : (readLoop b d size fuel c r).isSome = true := by
  induction l generalizing c fuel r with
  | nil =>
      cases fuel with
      | zero => cases hfuel
      | succ fuel =>
          have hc : ¬ IsCluster c := h.nil_iff.mp rfl
          simp [readLoop, hc]
  | cons a l ih =>
      cases fuel with
      | zero => cases hfuel
      | succ fuel =>
          cases h with
          | step hc h =>
              simp only [readLoop, hc, if_true]
              split
              · rfl
              · rw [Option.isSome_map]
                exact ih h (Nat.lt_of_succ_lt_succ hfuel)

/-- `m` bytes are copied of a file of that size whose first cluster is `c`: clusters only,
and all bytes unless the walk leaves the clusters. -/
structure Copied (b : Bpb) (d : Disk) (c size m : ℕ) : Prop where
  le : m ≤ size
  guarded : ∀ i, i * clusterBytes b < m → IsCluster (walk b d c i)
  stop : m < size → ∃ i, i * clusterBytes b = m ∧ ¬ IsCluster (walk b d c i)

/-- The stores of one cluster. -/
theorem readSectors_walk {j : ℕ} (hj : j * clusterBytes b ≤ size) :
    readSectors d size b.spc (b.clusterSector (walk b d c j)) (j * clusterBytes b) =
      ((List.range' (j * clusterBytes b)
          (min size ((j + 1) * clusterBytes b) - j * clusterBytes b)).map fun y =>
        (y, walkByte b d c y), min size ((j + 1) * clusterBytes b)) := by
  have hnext : j * clusterBytes b + 512 * b.spc = (j + 1) * clusterBytes b :=
    (Nat.succ_mul j (clusterBytes b)).symm
  rw [readSectors_eq _ _ _ _ _ hj, hnext]
  refine Prod.ext (List.map_congr_left ?_) rfl
  intro y hy
  have hy := List.mem_range'_1.mp hy
  have hpos : 0 < clusterBytes b := by
    rcases Nat.eq_zero_or_pos (clusterBytes b) with hz | hpos
    · simp only [hz, Nat.mul_zero] at hy
      omega
    · exact hpos
  have hdiv : y / clusterBytes b = j := by
    apply Nat.div_eq_of_lt_le hy.1
    omega
  have hmod : y % clusterBytes b = y - j * clusterBytes b := by
    rw [Nat.mod_eq_sub_div_mul, hdiv]
  have hsec : (y - j * clusterBytes b) % 512 = y % 512 := by
    have hlow : 512 ∣ j * clusterBytes b :=
      Dvd.dvd.mul_left (Nat.dvd_mul_right 512 b.spc) j
    omega
  rw [walkByte, hdiv, hmod, hsec]

/-- The chain loop stores the bytes of the walked clusters, from the front and each once. -/
theorem readLoop_walk {fuel j : ℕ} (hj : j * clusterBytes b ≤ size)
    (hbefore : ∀ i < j, IsCluster (walk b d c i))
    (h : readLoop b d size fuel (walk b d c j) (j * clusterBytes b) = some stores) :
    ∃ m, j * clusterBytes b ≤ m ∧ Copied b d c size m ∧
      stores = (List.range' (j * clusterBytes b) (m - j * clusterBytes b)).map fun y =>
        (y, walkByte b d c y) := by
  induction fuel generalizing j stores with
  | zero => cases h
  | succ fuel ih =>
      rw [readLoop] at h
      by_cases hc : IsCluster (walk b d c j)
      · rw [if_pos hc, readSectors_walk hj] at h
        have hupto : ∀ i < j + 1, IsCluster (walk b d c i) := by
          intro i hi
          rcases Nat.lt_succ_iff_lt_or_eq.mp hi with hlt | rfl
          · exact hbefore i hlt
          · exact hc
        by_cases hend : size ≤ (j + 1) * clusterBytes b
        · rw [Nat.min_eq_left hend] at h
          simp only [le_refl, if_true, Option.some.injEq] at h
          refine ⟨size, hj, ⟨le_rfl, ?_, fun hlt => absurd hlt (lt_irrefl _)⟩, h.symm⟩
          intro i hi
          exact hupto i (Nat.lt_of_mul_lt_mul_right (hi.trans_le hend))
        · rw [Nat.min_eq_right (by omega)] at h
          simp only [hend, if_false, ← walk_succ] at h
          obtain ⟨rest, hrest, rfl⟩ := Option.map_eq_some_iff.mp h
          obtain ⟨m, hm, hcopied, rfl⟩ := ih (by omega) hupto hrest
          have hstep : j * clusterBytes b ≤ (j + 1) * clusterBytes b :=
            Nat.mul_le_mul_right _ (Nat.le_succ j)
          refine ⟨m, hstep.trans hm, hcopied, ?_⟩
          have hlen : m - j * clusterBytes b =
              ((j + 1) * clusterBytes b - j * clusterBytes b) + (m - (j + 1) * clusterBytes b) := by
            omega
          have hstart : (j + 1) * clusterBytes b =
              j * clusterBytes b + ((j + 1) * clusterBytes b - j * clusterBytes b) := by
            omega
          rw [hlen, ← List.range'_append_1, List.map_append, ← hstart]
      · rw [if_neg hc, Option.some.injEq] at h
        refine ⟨j * clusterBytes b, le_rfl, ⟨hj, ?_, fun _ => ⟨j, rfl, hc⟩⟩, by simp [← h]⟩
        intro i hi
        exact hbefore i (Nat.lt_of_mul_lt_mul_right hi)

theorem readChain_walk (h : readChain b d c size = some stores) :
    ∃ m, Copied b d c size m ∧ stores = (List.range m).map fun y => (y, walkByte b d c y) := by
  have hloop : readLoop b d size (size + 0x10001) (walk b d c 0) (0 * clusterBytes b) =
      some stores := by
    rw [Nat.zero_mul]
    exact h
  obtain ⟨m, _, hcopied, hstores⟩ := readLoop_walk (by simp) (by simp) hloop
  refine ⟨m, hcopied, ?_⟩
  rw [hstores, Nat.zero_mul, Nat.sub_zero, List.range_eq_range']

theorem readChain_isSome_of_stop (size : ℕ) {i : ℕ} (h : ¬ IsCluster (walk b d c i)) :
    (readChain b d c size).isSome = true := by
  obtain ⟨l, e, hl⟩ := exists_chain_of_stop h
  have hlen := length_chain_le hl
  exact readLoop_isSome_of_chain hl (by omega)

/-! ## Reading is bounded -/

/-- The buffer is filled from the front, no further than the size that is reported for the
file. -/
theorem fat16ReadFile_filled {result : ℤ} (h : fat16ReadFile b d filename = some (result, stores)) :
    ∃ m, stores.map Prod.fst = List.range m ∧ m ≤ fat16GetFileSize b d filename := by
  rw [fat16GetFileSize_eq]
  rw [fat16ReadFile_eq] at h
  cases hlook : lookup b d (formatFatName filename) with
  | none =>
      rw [hlook, Option.elim_none] at h
      obtain ⟨_, rfl⟩ := Prod.mk.inj (Option.some_inj.mp h)
      exact ⟨0, rfl, Nat.zero_le _⟩
  | some k =>
      rw [hlook, Option.elim_some] at h
      obtain ⟨stores', hchain, heq⟩ := Option.map_eq_some_iff.mp h
      obtain ⟨_, rfl⟩ := Prod.mk.inj heq
      obtain ⟨m, hcopied, hstores⟩ := readChain_walk hchain
      refine ⟨m, ?_, hcopied.le⟩
      rw [hstores, List.map_map]
      exact List.map_id _

/-- Whatever the disk holds, reading a file ends, and it fills the buffer from the front, no
further than the size that is reported for the file. -/
theorem read_any_disk (hspc : 1 ≤ b.spc) (d : Disk) (filename : List UInt8) :
    ∃ result stores m, fat16ReadFile b d filename = some (result, stores) ∧
      stores.map Prod.fst = List.range m ∧ m ≤ fat16GetFileSize b d filename := by
  obtain ⟨⟨result, stores⟩, hread⟩ :=
    Option.isSome_iff_exists.mp (fat16ReadFile_isSome (d := d) hspc filename)
  obtain ⟨m, hfilled, hle⟩ := fat16ReadFile_filled hread
  exact ⟨result, stores, m, hread, hfilled, hle⟩

/-- A file of 513 bytes on a chain whose only cluster is its own successor. -/
def cyclicDisk : Disk :=
  fat16SetFatEntry (smallBpb 6) (ataWriteSector blankDisk 2 (storeDirEntry Sector.zero 0
    { name := formatFatName [0x41], attributes := 0x20, firstCluster := 2, fileSize := 513 })) 2 2

theorem slot_cyclicDisk : slot (smallBpb 6) cyclicDisk 0 =
    { name := formatFatName [0x41], attributes := 0x20, firstCluster := 2, fileSize := 513 } := by
  have hroot : cyclicDisk (smallBpb 6).rootDirSector = storeDirEntry Sector.zero 0
      { name := formatFatName [0x41], attributes := 0x20, firstCluster := 2, fileSize := 513 } := by
    rfl
  exact slot_zero_of_store hroot (length_formatFatName [0x41]) (by decide) (by decide)

theorem lookup_cyclicDisk : lookup (smallBpb 6) cyclicDisk (formatFatName [0x41]) = some 0 := by
  refine lookup_eq_zero (by decide) ?_
  rw [slot_cyclicDisk]
  decide

/-- The reader comes back from the chain that never ends. -/
theorem read_any_disk_small :
    fat16GetFatEntry (smallBpb 6) cyclicDisk 2 = 2 ∧
      fat16GetFileSize (smallBpb 6) cyclicDisk [0x41] = 513 ∧
      ∃ result stores m, fat16ReadFile (smallBpb 6) cyclicDisk [0x41] = some (result, stores) ∧
        stores.map Prod.fst = List.range m ∧ m ≤ 513 := by
  have hsize : fat16GetFileSize (smallBpb 6) cyclicDisk [0x41] = 513 := by
    rw [fat16GetFileSize_eq, lookup_cyclicDisk, Option.elim_some, slot_cyclicDisk]
  refine ⟨by decide +kernel, hsize, ?_⟩
  rw [← hsize]
  exact read_any_disk (by decide) cyclicDisk [0x41]

/-! ## What the result promises -/

/-- Every byte that the result counts has been stored, from a cluster of the file. -/
def ResultStored (b : Bpb) (d : Disk) (filename : List UInt8) : Prop :=
  ∀ result stores, fat16ReadFile b d filename = some (result, stores) →
    ∀ y : ℕ, (y : ℤ) < result →
      ∃ k, lookup b d (formatFatName filename) = some k ∧
        IsCluster (walk b d (slot b d k).firstCluster (y / clusterBytes b)) ∧
        (y, walkByte b d (slot b d k).firstCluster y) ∈ stores

/-- The walk from the first cluster passes as many clusters as the size asks for. -/
def ChainCovers (b : Bpb) (d : Disk) (e : DirEntry) : Prop :=
  ∀ i, i * clusterBytes b < e.fileSize → IsCluster (walk b d e.firstCluster i)

theorem toInt32_neg {n : ℕ} (hn : n < 2 ^ 32) (h : 2 ^ 31 ≤ n) : toInt32 n < 0 := by
  unfold toInt32
  rw [Int.bmod_def]
  omega

theorem Copied.eq_size {e : DirEntry} (h : Copied b d e.firstCluster e.fileSize m)
    (hcover : ChainCovers b d e) : m = e.fileSize := by
  by_contra hne
  have hlt := lt_of_le_of_ne h.le hne
  obtain ⟨i, hi, hstop⟩ := h.stop hlt
  exact hstop (hcover i (by rwa [hi]))

section Found

variable {k : ℕ} (hlook : lookup b d (formatFatName filename) = some k)
include hlook

theorem fat16ReadFile_of_lookup : fat16ReadFile b d filename =
    (readChain b d (slot b d k).firstCluster (slot b d k).fileSize).map fun stores =>
      (toInt32 (slot b d k).fileSize, stores) := by
  rw [fat16ReadFile_eq, hlook, Option.elim_some]

/-- The byte at which the first missing cluster would begin is counted and not stored. -/
theorem ResultStored.covers (h : ResultStored b d filename)
    (hsize : (slot b d k).fileSize < 2 ^ 31) : ChainCovers b d (slot b d k) := by
  by_contra hcover
  simp only [ChainCovers, not_forall] at hcover
  obtain ⟨i, hi, hstop⟩ := hcover
  obtain ⟨stores, hchain⟩ := Option.isSome_iff_exists.mp
    (readChain_isSome_of_stop (slot b d k).fileSize hstop)
  obtain ⟨m, hcopied, hstores⟩ := readChain_walk hchain
  have hread : fat16ReadFile b d filename = some (((slot b d k).fileSize : ℤ), stores) := by
    rw [fat16ReadFile_of_lookup hlook, hchain, Option.map_some, toInt32_of_lt hsize]
  obtain ⟨k', hlook', _, hmem⟩ := h _ _ hread (i * clusterBytes b) (by exact_mod_cast hi)
  rw [hstores] at hmem
  obtain ⟨y, hy, heq⟩ := List.mem_map.mp hmem
  obtain ⟨rfl, _⟩ := Prod.mk.inj heq
  exact hstop (hcopied.guarded i (List.mem_range.mp hy))

theorem resultStored_of_big (hsize : 2 ^ 31 ≤ (slot b d k).fileSize) :
    ResultStored b d filename := by
  intro result stores hread y hy
  rw [fat16ReadFile_of_lookup hlook] at hread
  obtain ⟨stores', _, heq⟩ := Option.map_eq_some_iff.mp hread
  obtain ⟨rfl, rfl⟩ := Prod.mk.inj heq
  have hlt : (slot b d k).fileSize < 2 ^ 32 := le32_lt _ _
  have := toInt32_neg hlt hsize
  omega

theorem resultStored_of_covers (hsize : (slot b d k).fileSize < 2 ^ 31)
    (hcover : ChainCovers b d (slot b d k)) : ResultStored b d filename := by
  intro result stores hread y hy
  rw [fat16ReadFile_of_lookup hlook] at hread
  obtain ⟨stores', hchain, heq⟩ := Option.map_eq_some_iff.mp hread
  obtain ⟨rfl, rfl⟩ := Prod.mk.inj heq
  obtain ⟨m, hcopied, hstores⟩ := readChain_walk hchain
  have hm := hcopied.eq_size hcover
  rw [toInt32_of_lt hsize] at hy
  have hlt : y < m := by omega
  refine ⟨k, hlook, hcopied.guarded _ ?_, ?_⟩
  · exact (Nat.div_mul_le_self y (clusterBytes b)).trans_lt hlt
  · rw [hstores]
    exact List.mem_map.mpr ⟨y, List.mem_range.mpr hlt, rfl⟩

end Found

theorem resultStored_of_not_found (hlook : lookup b d (formatFatName filename) = none) :
    ResultStored b d filename := by
  intro result stores hread y hy
  rw [fat16ReadFile_eq, hlook, Option.elim_none] at hread
  obtain ⟨rfl, _⟩ := Prod.mk.inj (Option.some_inj.mp hread)
  omega

/-- The result is the number of the bytes read exactly if the chain covers the size or the
size is no positive `int`. -/
theorem resultStored_iff (b : Bpb) (d : Disk) (filename : List UInt8) :
    ResultStored b d filename ↔
      ∀ k, lookup b d (formatFatName filename) = some k →
        2 ^ 31 ≤ (slot b d k).fileSize ∨ ChainCovers b d (slot b d k) := by
  constructor
  · intro h k hlook
    rcases Nat.lt_or_ge (slot b d k).fileSize (2 ^ 31) with hsize | hsize
    · exact .inr (h.covers hlook hsize)
    · exact .inl hsize
  · intro h
    cases hlook : lookup b d (formatFatName filename) with
    | none => exact resultStored_of_not_found hlook
    | some k =>
        rcases Nat.lt_or_ge (slot b d k).fileSize (2 ^ 31) with hsize | hsize
        · exact resultStored_of_covers hlook hsize
            ((h k hlook).resolve_left (Nat.not_le_of_lt hsize))
        · exact resultStored_of_big hlook hsize

/-- A directory whose only entry records five bytes and no cluster. -/
def shortChainDisk : Disk :=
  ataWriteSector blankDisk 2 (storeDirEntry Sector.zero 0
    { name := formatFatName [0x41], attributes := 0x20, firstCluster := 0, fileSize := 5 })

theorem slot_shortChainDisk : slot (smallBpb 6) shortChainDisk 0 =
    { name := formatFatName [0x41], attributes := 0x20, firstCluster := 0, fileSize := 5 } := by
  have hroot : shortChainDisk (smallBpb 6).rootDirSector = storeDirEntry Sector.zero 0
      { name := formatFatName [0x41], attributes := 0x20, firstCluster := 0, fileSize := 5 } := by
    have hsec : (smallBpb 6).rootDirSector = 2 := by decide
    simp [hsec, shortChainDisk, ataWriteSector]
  exact slot_zero_of_store hroot (length_formatFatName [0x41]) (by decide) (by decide)

theorem lookup_shortChainDisk :
    lookup (smallBpb 6) shortChainDisk (formatFatName [0x41]) = some 0 := by
  refine lookup_eq_zero (by decide) ?_
  rw [slot_shortChainDisk]
  decide

/-- The reader reports five bytes and stores none. -/
theorem result_not_stored :
    fat16ReadFile (smallBpb 6) shortChainDisk [0x41] = some (5, []) ∧
      ¬ ResultStored (smallBpb 6) shortChainDisk [0x41] := by
  have hread : fat16ReadFile (smallBpb 6) shortChainDisk [0x41] = some (5, []) := by
    rw [fat16ReadFile_eq, lookup_shortChainDisk, Option.elim_some, slot_shortChainDisk]
    rfl
  refine ⟨hread, ?_⟩
  intro h
  obtain ⟨_, _, _, hmem⟩ := h 5 [] hread 0 (by decide)
  exact List.not_mem_nil hmem

end LispDos.Fat16
