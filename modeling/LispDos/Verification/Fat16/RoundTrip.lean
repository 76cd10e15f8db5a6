import LispDos.Verification.Fat16.Isolation

/-! # Reading back what was written -/

namespace LispDos.Fat16

open Foundation

variable {b : Bpb} {d : Disk} {chain : ℕ → List ℕ} {name : List UInt8}
  {buffer : ℕ → UInt8} {size k : ℕ} {l : List ℕ}

/-! ## Names that stay live -/

theorem fatUpper_ne_deleted {c : UInt8} (h : c ≠ 0xE5) : fatUpper c ≠ 0xE5 := by
  simp only [fatUpper]
  split
  · rename_i hc
    intro he
    have h₁ := UInt8.le_iff_toNat_le.mp hc.1
    have h₂ := UInt8.le_iff_toNat_le.mp hc.2
    have hle : (32 : UInt8) ≤ c := UInt8.le_iff_toNat_le.mpr (le_trans (by decide) h₁)
    have h₃ := congrArg UInt8.toNat he
    rw [UInt8.toNat_sub_of_le _ _ hle] at h₃
    have h₄ : (0x7A : UInt8).toNat = 122 := rfl
    have h₅ : (0xE5 : UInt8).toNat = 229 := rfl
    omega
  · exact h

/-- A name whose first byte is not the deletion mark gives an entry that is live. -/
theorem headD_formatFatName_ne_deleted {filename : List UInt8} (h : filename.head? ≠ some 0xE5) :
    (formatFatName filename).headD 0 ≠ 0xE5 := by
  apply headD_formatFatName_ne (by decide)
  intro c hmem _
  apply fatUpper_ne_deleted
  intro hc
  rw [hc] at hmem
  exact h hmem

theorem live_newEntry {filename : List UInt8} (h : filename.head? ≠ some 0xE5) (first size : ℕ) :
    Live (newEntry (formatFatName filename) first size) :=
  ⟨headD_formatFatName_ne_zero filename, headD_formatFatName_ne_deleted h⟩

theorem not_isDir_newEntry (name : List UInt8) (first size : ℕ) :
    ¬ IsDir (newEntry name first size) := by
  have hattr : (0x20 : UInt8) &&& 0x10 = 0 := by decide
  simp only [IsDir, newEntry, hattr, ne_eq, not_true_eq_false, not_false_eq_true]

/-! ## The contents -/

/-- The sectors of the new chain hold the buffer, byte by byte. -/
theorem fileByte_of_data (hg : Geometry b) (hlen : size ≤ clusterBytes b * l.length)
    (data : ∀ j c, l[j]? = some c → ∀ i < b.spc,
      d (b.clusterSector c + i) = chunk buffer size (clusterBytes b * j + 512 * i))
    {y : ℕ} (hy : y < size) : fileByte b d l y = buffer y := by
  have hspc := hg.spc
  have hbytes : clusterBytes b = 512 * b.spc := rfl
  have hpos : 0 < clusterBytes b := by omega
  have hj : y / clusterBytes b < l.length := by
    rw [Nat.div_lt_iff_lt_mul hpos, Nat.mul_comm]
    omega
  have hmod := Nat.mod_lt y hpos
  have hdivmod := Nat.div_add_mod y (clusterBytes b)
  have hi : y % clusterBytes b / 512 < b.spc := by omega
  have hlow : y % clusterBytes b % 512 = y % 512 := Nat.mod_mul_right_mod y 512 b.spc
  have hsum : clusterBytes b * (y / clusterBytes b) + 512 * (y % clusterBytes b / 512) + y % 512 =
      y := by omega
  have hget : l[y / clusterBytes b]? = some (l.getD (y / clusterBytes b) 0) := by
    simp [hj]
  rw [fileByte, data _ _ hget _ hi, byte_chunk (by omega), hsum, if_pos hy]

theorem toInt32_of_lt {n : ℕ} (h : n < 2 ^ 31) : toInt32 n = n := by
  unfold toInt32
  exact Int.bmod_eq_of_le (by omega) (by omega)

/-- What a completed write leaves to be read under its name. -/
theorem WriteCase.read_back (h : Sound b d chain) {filename : List UInt8} {r : Disk}
    (hname : filename.head? ≠ some 0xE5)
    (hw : WriteCase b d chain (formatFatName filename) buffer size (.done, r)) :
    fat16GetFileSize b r filename = size ∧
      fat16ReadFile b r filename =
        some (toInt32 size, (List.range size).map fun x => (x, buffer x)) := by
  cases hw with
  | done k cs l r target hlen hcard hl new entry outside mirror stored others data =>
      have hg := h.geometry
      have hfile : IsFile (formatFatName filename) (slot b r k) := by
        rw [stored]
        exact ⟨live_newEntry hname _ _, rfl, not_isDir_newEntry _ _ _⟩
      have hdir : DirOk b r :=
        target.dirOk h.dir (headD_formatFatName_ne_zero filename) hfile.2.1 others
      have hlook := hdir.lookup_eq_some_iff.mpr ⟨target.lt, hfile⟩
      have henough : size ≤ clusterBytes b * l.length := by
        rw [hlen]
        exact size_le_need_mul hg
      have hread := readChain_eq hg new henough
      have hbytes : (List.range size).map (fun x => (x, fileByte b r l x)) =
          (List.range size).map fun x => (x, buffer x) := by
        apply List.map_congr_left
        intro x hx
        rw [fileByte_of_data hg henough data (List.mem_range.mp hx)]
      constructor
      · rw [fat16GetFileSize_eq, hlook, Option.elim_some, stored]
        rfl
      · rw [fat16ReadFile_eq, hlook, Option.elim_some, stored]
        simp only [newEntry, hread, hbytes, Option.map_some]

/-- A positive result is returned at the end of a completed write only. -/
theorem WriteExit.done_of_result {exit : WriteExit} {size : ℕ} (hpos : 0 < size)
    (h : exit.result size = some (size : ℤ)) : exit = .done := by
  cases exit with
  | divideError => simp [WriteExit.result] at h
  | rootFull =>
      simp [WriteExit.result] at h
      omega
  | diskFull =>
      simp [WriteExit.result] at h
      omega
  | done => rfl

/-- A write that returns the size can be read back: the size under the name is the
one written, and reading stores exactly the buffer. -/
theorem write_read_round_trip (h : WellFormed b d) (filename : List UInt8)
    (hname : filename.head? ≠ some 0xE5) (buffer : ℕ → UInt8) (size : UInt32)
    (hpos : 0 < size.toNat) (hsize : size.toNat < 2 ^ 31)
    (hret : (fat16WriteFile b d filename buffer size).1 = some (size.toNat : ℤ)) :
    fat16GetFileSize b (fat16WriteFile b d filename buffer size).2 filename = size.toNat ∧
    ∃ stores,
      fat16ReadFile b (fat16WriteFile b d filename buffer size).2 filename =
        some ((size.toNat : ℤ), stores) ∧
      ∀ (out : ℕ → UInt8) (i : ℕ),
        applyStores out stores i = if i < size.toNat then buffer i else out i := by
  obtain ⟨chain, h⟩ := h
  have hw := fat16WriteRun_cases h filename buffer size
  have hdone := WriteExit.done_of_result hpos hret
  have hrun : fat16WriteRun b d filename buffer size =
      (.done, (fat16WriteRun b d filename buffer size).2) := Prod.ext hdone rfl
  rw [hrun] at hw
  obtain ⟨hfile, hread⟩ := hw.read_back h hname
  refine ⟨hfile, _, ?_, fun out i => applyStores_range out buffer size.toNat i⟩
  rw [← toInt32_of_lt hsize]
  exact hread

/-- The small volume has room for a file of one cluster, under any name. -/
theorem small_write_done_name (filename : List UInt8) (buffer : ℕ → UInt8) :
    (fat16WriteRun (smallBpb 6) blankDisk filename buffer 1).1 = .done := by
  apply fat16WriteRun_done (blankDisk_layout smallBpb_six (fun _ => [])).toSound
  · exact ⟨0, by decide, .inl (slot_blankDisk_not_live _ 0)⟩
  · intro k cs target
    have htwo : 2 ∈ available (smallBpb 6) blankDisk cs :=
      mem_available.mpr ⟨by decide, .inl (fatEntry_blankDisk _ 2)⟩
    have hcard := Finset.card_pos.mpr ⟨2, htwo⟩
    have hneed : need (smallBpb 6) (1 : UInt32).toNat = 1 := by decide
    omega

theorem small_write_done (buffer : ℕ → UInt8) :
    (fat16WriteRun (smallBpb 6) blankDisk [0x41] buffer 1).1 = .done :=
  small_write_done_name [0x41] buffer

theorem write_read_round_trip_small :
    ∃ stores,
      fat16ReadFile (smallBpb 6)
        (fat16WriteFile (smallBpb 6) blankDisk [0x41] (fun _ => 7) 1).2 [0x41] =
          some (1, stores) ∧
      applyStores (fun _ => 0) stores 0 = 7 := by
  have hret : (fat16WriteFile (smallBpb 6) blankDisk [0x41] (fun _ => 7) 1).1 =
      some ((1 : UInt32).toNat : ℤ) := by
    simp only [fat16WriteFile, small_write_done]
    exact congrArg some (toInt32_of_lt (by decide))
  obtain ⟨stores, hread, hout⟩ := (write_read_round_trip
    ⟨fun _ => [], (blankDisk_layout smallBpb_six _).toSound⟩ [0x41] (by decide) (fun _ => 7) 1
    (by decide) (by decide) hret).2
  exact ⟨stores, hread, hout (fun _ => 0) 0⟩

end LispDos.Fat16
