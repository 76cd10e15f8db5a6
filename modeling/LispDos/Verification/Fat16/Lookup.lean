import LispDos.Verification.Fat16.Consistency

/-! # Agreement of the name lookups

The three scans that read stop at the same slot. The slot search of the writer tests no
attributes and goes on after the sector of an end mark, so it may stop elsewhere. -/

namespace LispDos.Fat16

variable {b : Bpb} {d : Disk} {name : List UInt8} {j k : ℕ}

/-- A write of the name frees the chain of slot `k` and stores its entry there. -/
def Replaces (b : Bpb) (d : Disk) (filename : List UInt8) (k : ℕ) : Prop :=
  writeSlot b d (formatFatName filename) = .existing (k / 16) (k % 16) ∧
    ∀ (buffer : ℕ → UInt8) (size : UInt32), fat16WriteRun b d filename buffer size =
      writeAtSlot b (freeChain b d (slot b d k).firstCluster) (formatFatName filename) buffer
        size.toNat (k / 16) (k % 16)

/-- Reading and deleting act on the denoted slot and report a missing file when there is
none, and a write replaces exactly the denoted entry. -/
structure LookupsAgree (b : Bpb) (d : Disk) (filename : List UInt8) : Prop where
  found : ∀ k, Denotes b d (formatFatName filename) k →
    fat16GetFileSize b d filename = (slot b d k).fileSize ∧
    fat16ReadFile b d filename =
      (readChain b d (slot b d k).firstCluster (slot b d k).fileSize).map
        (fun stores => (toInt32 (slot b d k).fileSize, stores)) ∧
    fat16DeleteFile b d filename = (1, deleteSlot b d k)
  missing : (∀ k, ¬ Denotes b d (formatFatName filename) k) →
    fat16GetFileSize b d filename = 0 ∧ fat16ReadFile b d filename = some (0, []) ∧
      fat16DeleteFile b d filename = (0, d)
  written : ∀ k, Replaces b d filename k ↔ Denotes b d (formatFatName filename) k

/-- The first live slot of the name among those with no end mark before them in their
own sector is no directory and has no end mark in an earlier sector. -/
def Unambiguous (b : Bpb) (d : Disk) (name : List UInt8) : Prop :=
  ∀ k, Visible b d name k → (∀ j < k, ¬ Visible b d name j) →
    ¬ IsDir (slot b d k) ∧ ∀ j < k, (slot b d j).mark ≠ 0

theorem replaces_iff (filename : List UInt8) :
    Replaces b d filename k ↔ WriteFinds b d (formatFatName filename) k := by
  have hsplit : 16 * (k / 16) + k % 16 = k := Nat.div_add_mod k 16
  constructor
  · rintro ⟨hslot, _⟩
    have := ((writeSlot_existing_iff b d _ _ _).mp hslot).2
    rwa [hsplit] at this
  · intro hf
    have hslot := (writeSlot_existing_iff b d (formatFatName filename) (k / 16) (k % 16)).mpr
      ⟨Nat.mod_lt _ (by decide), by rwa [hsplit]⟩
    refine ⟨hslot, ?_⟩
    intro buffer size
    simp only [fat16WriteRun, hslot, slot, ataReadSector]

theorem Denotes.visible (h : Denotes b d name k) : Visible b d name k := by
  obtain ⟨hk, hf, hbefore⟩ := h
  exact ⟨hk, ⟨hf.1, hf.2.1⟩, fun j hj _ => (hbefore j hj).1⟩

theorem Denotes.unique (h : Denotes b d name k) (h' : Denotes b d name j) : k = j := by
  rw [← lookup_eq_some_iff] at h h'
  rw [h] at h'
  exact Option.some_inj.mp h'

/-- A visible slot has a first one at or before it. -/
theorem Visible.exists_writeFinds (h : Visible b d name k) : ∃ j, WriteFinds b d name j := by
  classical
  have hex : ∃ j, Visible b d name j := ⟨k, h⟩
  exact ⟨Nat.find hex, Nat.find_spec hex, fun j hj => Nat.find_min hex hj⟩

theorem Unambiguous.denotes (h : Unambiguous b d name) (hf : WriteFinds b d name k) :
    Denotes b d name k := by
  obtain ⟨hv, hfirst⟩ := hf
  obtain ⟨hdir, hmark⟩ := h k hv hfirst
  refine ⟨hv.1, ⟨hv.2.1.1, hv.2.1.2, hdir⟩, ?_⟩
  intro j hj
  refine ⟨hmark j hj, ?_⟩
  intro hfile
  -- an earlier file of the name would itself be visible
  have hlt := hv.1
  exact hfirst j hj ⟨by omega, ⟨hfile.1, hfile.2.1⟩, fun i hi _ => hmark i (by omega)⟩

/-- The writer stops at the denoted slot for every layout of the directory exactly when
the name is unambiguous. -/
theorem writeFinds_iff_denotes_iff :
    (∀ k, WriteFinds b d name k ↔ Denotes b d name k) ↔ Unambiguous b d name := by
  constructor
  · intro h k hv hfirst
    obtain ⟨_, hf, hbefore⟩ := (h k).mp ⟨hv, hfirst⟩
    exact ⟨hf.2.2, fun j hj => (hbefore j hj).1⟩
  · intro h k
    refine ⟨h.denotes, ?_⟩
    intro hk
    obtain ⟨j, hj⟩ := hk.visible.exists_writeFinds
    have hjk := (h.denotes hj).unique hk
    exact hjk ▸ hj

/-- All four lookups agree on a name if and only if it is unambiguous. -/
theorem lookups_agree_iff (b : Bpb) (d : Disk) (filename : List UInt8) :
    LookupsAgree b d filename ↔ Unambiguous b d (formatFatName filename) := by
  rw [← writeFinds_iff_denotes_iff]
  constructor
  · intro h k
    rw [← replaces_iff]
    exact h.written k
  · intro h
    refine ⟨?_, ?_, ?_⟩
    · intro k hk
      have hsome := (lookup_eq_some_iff b d _ k).mpr hk
      refine ⟨?_, ?_, ?_⟩
      · rw [fat16GetFileSize_eq, hsome, Option.elim_some]
      · rw [fat16ReadFile_eq, hsome, Option.elim_some]
      · rw [fat16DeleteFile_eq, hsome, Option.elim_some]
    · intro hno
      have hnone : lookup b d (formatFatName filename) = none := by
        rw [Option.eq_none_iff_forall_ne_some]
        intro k hk
        exact hno k ((lookup_eq_some_iff b d _ k).mp hk)
      rw [fat16GetFileSize_eq, fat16ReadFile_eq, fat16DeleteFile_eq, hnone]
      simp only [Option.elim_none, and_self]
    · intro k
      rw [replaces_iff]
      exact h k

/-- A root directory whose first slot is a subdirectory. -/
def subdirDisk : Disk :=
  ataWriteSector blankDisk 2 (storeDirEntry Sector.zero 0
    { name := formatFatName [0x41], attributes := 0x10, firstCluster := 2, fileSize := 0 })

theorem slot_subdirDisk : slot (smallBpb 6) subdirDisk 0 =
    { name := formatFatName [0x41], attributes := 0x10, firstCluster := 2, fileSize := 0 } := by
  have hroot : subdirDisk (smallBpb 6).rootDirSector = storeDirEntry Sector.zero 0
      { name := formatFatName [0x41], attributes := 0x10, firstCluster := 2, fileSize := 0 } := by
    have hsec : (smallBpb 6).rootDirSector = 2 := by decide
    simp [hsec, subdirDisk, ataWriteSector]
  exact slot_zero_of_store hroot (length_formatFatName [0x41]) (by decide) (by decide)

/-- Writing the name of a subdirectory replaces the subdirectory, although the name
denotes no file. -/
theorem write_replaces_subdirectory :
    Replaces (smallBpb 6) subdirDisk [0x41] 0 ∧ IsDir (slot (smallBpb 6) subdirDisk 0) ∧
      ¬ Denotes (smallBpb 6) subdirDisk (formatFatName [0x41]) 0 ∧
      ¬ LookupsAgree (smallBpb 6) subdirDisk [0x41] := by
  have hdir : IsDir (slot (smallBpb 6) subdirDisk 0) := by
    rw [slot_subdirDisk]
    decide
  have hlive : Live (slot (smallBpb 6) subdirDisk 0) := by
    rw [slot_subdirDisk]
    decide
  have hrep : Replaces (smallBpb 6) subdirDisk [0x41] 0 := by
    rw [replaces_iff]
    refine ⟨⟨by decide, ⟨hlive, ?_⟩, fun j hj => absurd hj (by omega)⟩,
      fun j hj => absurd hj (by omega)⟩
    rw [slot_subdirDisk]
  have hnot : ¬ Denotes (smallBpb 6) subdirDisk (formatFatName [0x41]) 0 :=
    fun h => h.2.1.2.2 hdir
  exact ⟨hrep, hdir, hnot, fun h => hnot ((h.written 0).mp hrep)⟩

end LispDos.Fat16
