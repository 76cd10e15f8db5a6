import LispDos.Verification.Fat16.Preservation

/-! # Writes that run out of space

The rollback of a new file restores the tables and the directory exactly. The rollback
of an overwrite does not bring back the chain that was freed first, so it keeps the old
file only when that chain was empty. -/

namespace LispDos.Fat16

open Foundation

variable {b : Bpb} {d d' : Disk} {chain : ℕ → List ℕ} {name filename : List UInt8}
  {buffer : ℕ → UInt8} {k : ℕ} {l : List ℕ} {e : ℕ}

/-! ## New files -/

/-- A name that no live slot bears gets a fresh slot. -/
theorem Target.eq_nil_of_new {cs : List ℕ} (target : Target b d chain name k cs)
    (hnew : ∀ j < slots b, ¬ Matches name (slot b d j)) :
    cs = [] ∧ ¬ Live (slot b d k) := by
  cases target with
  | existing hk hm => exact (hnew k hk hm).elim
  | fresh _ hfree _ _ => exact ⟨rfl, hfree⟩

/-- A new file that does not fit leaves the tables and the root directory bit for bit
as they were, and every file reads as before. -/
theorem new_file_rollback (h : WellFormed b d) (hm : Mirror b d) (filename : List UInt8)
    (hnew : ∀ j < slots b, ¬ Matches (formatFatName filename) (slot b d j))
    (buffer : ℕ → UInt8) (size : UInt32)
    (hexit : (fat16WriteRun b d filename buffer size).1 = .diskFull ∨
      (fat16WriteRun b d filename buffer size).1 = .rootFull) :
    (∀ s, b.reserved ≤ s → s < b.dataSector →
      (fat16WriteFile b d filename buffer size).2 s = d s) ∧
    ∀ other, SameFile b d (fat16WriteFile b d filename buffer size).2 other := by
  obtain ⟨chain, h⟩ := h
  have hw := fat16WriteRun_cases h filename buffer size
  simp only [fat16WriteFile_snd]
  generalize fat16WriteRun b d filename buffer size = r at hw hexit
  cases hw with
  | rootFull _ _ => exact ⟨fun _ _ _ => rfl, fun _ => ⟨rfl, rfl⟩⟩
  | diskFull k cs l r target hcard hl entry outside mirror =>
      obtain ⟨rfl, hfree⟩ := target.eq_nil_of_new hnew
      have hsame : ∀ x < 256 * b.tableSize, fat16GetFatEntry b r x = fat16GetFatEntry b d x := by
        intro x hx
        simpa using entry x hx
      have hslot := fun j (hj : j < slots b) => slot_of_diskFull outside hj
      have hkeep := h.keeps target hl (fun x hx _ => entry x hx) (fun s hs _ hc => outside s hs hc)
        (fun j hj _ => hslot j hj)
      constructor
      · intro s h₁ h₂
        by_cases hs : InFat b s
        · exact inFat_eq_of_entries h.geometry hm (mirror hm) hsame hs
        · apply outside s hs
          intro c _ hin
          have := hin.dataSector_le
          omega
      · intro other
        refine hkeep.sameFile h (h.dir.congr hslot) (fun hf => hfree hf.1) ?_
        rw [hslot k target.lt]
        exact fun hf => hfree hf.1
  | done => simp at hexit

/-- On the small volume no file has two clusters. -/
theorem small_write_diskFull (h : Sound (smallBpb 6) d chain)
    (hslot : ∃ j < slots (smallBpb 6), ¬ Live (slot (smallBpb 6) d j) ∨
      Matches (formatFatName filename) (slot (smallBpb 6) d j)) (buffer : ℕ → UInt8) :
    (fat16WriteRun (smallBpb 6) d filename buffer 513).1 = .diskFull := by
  have hw := fat16WriteRun_cases h filename buffer 513
  generalize fat16WriteRun (smallBpb 6) d filename buffer 513 = r at hw
  cases hw with
  | rootFull hlive hno =>
      obtain ⟨j, hj, hfree | hm⟩ := hslot
      · exact (hfree (hlive j hj)).elim
      · exact (hno j hj hm).elim
  | diskFull => rfl
  | done k cs l r target hlen hcard =>
      have hle : (available (smallBpb 6) d cs).card ≤ (Finset.Ico 2 3).card :=
        Finset.card_filter_le _ _
      have hneed : need (smallBpb 6) (513 : UInt32).toNat = 2 := by decide
      rw [hneed] at hcard
      simp at hle
      omega

theorem new_file_rollback_small :
    (∀ s, (smallBpb 6).reserved ≤ s → s < (smallBpb 6).dataSector →
      (fat16WriteFile (smallBpb 6) blankDisk [0x41] (fun _ => 7) 513).2 s = blankDisk s) ∧
    ∀ other, SameFile (smallBpb 6) blankDisk
      (fat16WriteFile (smallBpb 6) blankDisk [0x41] (fun _ => 7) 513).2 other := by
  have h := (blankDisk_layout smallBpb_six (fun _ => [])).toSound
  refine new_file_rollback ⟨_, h⟩ (fun _ _ _ => rfl) [0x41] ?_ (fun _ => 7) 513 (.inl ?_)
  · exact fun j _ hm => slot_blankDisk_not_live _ j hm.1
  · exact small_write_diskFull h ⟨0, by decide, .inl (slot_blankDisk_not_live _ 0)⟩ _

/-! ## Overwrites -/

/-- A live entry whose first cluster is free is not consistent. -/
theorem not_consistent_of_dangling (hk : k < slots b) (hl : Live (slot b d k))
    (hc : IsCluster (slot b d k).firstCluster)
    (hz : fat16GetFatEntry b d (slot b d k).firstCluster = 0) : ¬ Consistent b d := by
  rintro ⟨chain, h⟩
  obtain ⟨e, hchain, _⟩ := h.chains k hk hl
  cases hlist : chain k with
  | nil => exact (hchain.nil_iff.mp hlist) hc
  | cons c l =>
      rw [hlist] at hchain
      have hmem : (slot b d k).firstCluster ∈ chain k := by
        rw [hlist, hchain.head_eq]
        simp
      exact h.entry_ne_zero hk hl hmem hz

theorem lookup_congr (hslot : ∀ j < slots b, slot b d' j = slot b d j) (hd : DirOk b d) :
    lookup b d' name = lookup b d name := by
  apply Option.ext
  intro j
  rw [(hd.congr hslot).lookup_eq_some_iff, hd.lookup_eq_some_iff]
  refine and_congr_right ?_
  intro hj
  rw [hslot j hj]

/-- The target of a write over an existing file is that file. -/
theorem Target.eq_of_existing {cs : List ℕ} {j : ℕ} (target : Target b d chain name j cs)
    (h : Sound b d chain) (hk : k < slots b) (hm : Matches name (slot b d k))
    (hchain : ClusterChain b d (slot b d k).firstCluster l e) : j = k ∧ cs = l := by
  cases target with
  | existing hj hmj =>
      have hjk := h.dir.distinct j k hj hk hmj.1 hm.1 (hmj.2.trans hm.2.symm)
      subst j
      exact ⟨rfl, h.chain_unique hk hm.1 hchain⟩
  | fresh _ _ _ hno => exact (hno k hk hm).elim

/-- An overwrite runs out of space exactly when fewer clusters are free or its own than
it needs. -/
theorem overwrite_diskFull_iff (h : Sound b d chain) (hk : k < slots b)
    (hm : Matches (formatFatName filename) (slot b d k))
    (hchain : ClusterChain b d (slot b d k).firstCluster l e) (buffer : ℕ → UInt8)
    (size : UInt32) :
    (fat16WriteRun b d filename buffer size).1 = .diskFull ↔
      (available b d l).card < need b size.toNat := by
  have hw := fat16WriteRun_cases h filename buffer size
  generalize fat16WriteRun b d filename buffer size = r at hw
  cases hw with
  | rootFull _ hno => exact (hno k hk hm).elim
  | diskFull j cs l' r target hcard =>
      obtain ⟨rfl, rfl⟩ := target.eq_of_existing h hk hm hchain
      simpa using hcard
  | done j cs l' r target hlen hcard =>
      obtain ⟨rfl, rfl⟩ := target.eq_of_existing h hk hm hchain
      simpa using hcard

/-- The old file is lost whenever it had a cluster. -/
theorem overwrite_dangling (h : Sound b d chain) (hk : k < slots b)
    (hm : Matches (formatFatName filename) (slot b d k))
    (hchain : ClusterChain b d (slot b d k).firstCluster l e) (hl : l ≠ [])
    {buffer : ℕ → UInt8} {size : UInt32}
    (hexit : (fat16WriteRun b d filename buffer size).1 = .diskFull) :
    ¬ Consistent b (fat16WriteRun b d filename buffer size).2 := by
  have hw := fat16WriteRun_cases h filename buffer size
  generalize fat16WriteRun b d filename buffer size = r at hw hexit
  cases hw with
  | rootFull => simp at hexit
  | done => simp at hexit
  | diskFull j cs l' r target hcard hsub entry outside mirror =>
      obtain ⟨rfl, rfl⟩ := target.eq_of_existing h hk hm hchain
      have hslot : slot b r j = slot b d j := slot_of_diskFull outside hk
      have hgo : IsCluster (slot b d j).firstCluster := by
        by_contra hgo
        exact hl (hchain.nil_iff.mpr hgo)
      have hmem : (slot b d j).firstCluster ∈ cs := by
        cases cs with
        | nil => exact (hl rfl).elim
        | cons c cs =>
            rw [hchain.head_eq]
            simp
      apply not_consistent_of_dangling hk
      · rw [hslot]
        exact hm.1
      · rw [hslot]
        exact hgo
      · have hlt := h.geometry.lt_entries (target.le_last h hmem).2
        rw [hslot, entry _ hlt, if_pos hmem]

/-- An overwrite that runs out of space keeps the volume consistent when the old file
had no cluster. -/
theorem overwrite_empty_rollback (h : Layout b d chain) (hk : k < slots b)
    (hm : Matches (formatFatName filename) (slot b d k))
    (hchain : ClusterChain b d (slot b d k).firstCluster [] e)
    {buffer : ℕ → UInt8} {size : UInt32}
    (hexit : (fat16WriteRun b d filename buffer size).1 = .diskFull) :
    Layout b (fat16WriteRun b d filename buffer size).2 chain ∧
      fat16ReadFile b (fat16WriteRun b d filename buffer size).2 filename =
        fat16ReadFile b d filename := by
  have hw := fat16WriteRun_cases h.toSound filename buffer size
  generalize fat16WriteRun b d filename buffer size = r at hw hexit
  cases hw with
  | rootFull => simp at hexit
  | done => simp at hexit
  | diskFull j cs l' r target hcard hsub entry outside mirror =>
      obtain ⟨rfl, rfl⟩ := target.eq_of_existing h.toSound hk hm hchain
      have hslot := fun i (hi : i < slots b) => slot_of_diskFull outside hi
      have hlook : lookup b d (formatFatName filename) = some j :=
        h.dir.lookup_eq_some_iff.mpr ⟨hk, hm.1, hm.2, h.plain j hk hm.1⟩
      have hread : ∀ n, readChain b r (slot b d j).firstCluster n =
          readChain b d (slot b d j).firstCluster n :=
        fun n => readChain_congr hchain (by simp) (by simp)
      refine ⟨h.of_same (fun x hx => by simpa using entry x hx) hslot (mirror h.mirror), ?_⟩
      rw [fat16ReadFile_eq, fat16ReadFile_eq, lookup_congr hslot h.dir, hlook, Option.elim_some,
        Option.elim_some, hslot j hk, hread]

/-- A failed overwrite keeps the volume consistent and the old contents readable if and
only if the old file had no cluster or the overwrite does not fail for lack of space. -/
theorem failed_overwrite_keeps_iff (h : Consistent b d) (filename : List UInt8)
    (hk : k < slots b) (hm : Matches (formatFatName filename) (slot b d k))
    (hchain : ClusterChain b d (slot b d k).firstCluster l e)
    (buffer : ℕ → UInt8) (size : UInt32) :
    ((fat16WriteRun b d filename buffer size).1 = .diskFull →
      Consistent b (fat16WriteFile b d filename buffer size).2 ∧
        fat16ReadFile b (fat16WriteFile b d filename buffer size).2 filename =
          fat16ReadFile b d filename) ↔
      (l = [] ∨ need b size.toNat ≤ (available b d l).card) := by
  obtain ⟨chain, h⟩ := h
  have hiff := overwrite_diskFull_iff h.toSound hk hm hchain buffer size
  rw [fat16WriteFile_snd]
  constructor
  · intro hkeep
    by_contra hcond
    rw [not_or] at hcond
    have hexit := hiff.mpr (by omega)
    exact overwrite_dangling h.toSound hk hm hchain hcond.1 hexit (hkeep hexit).1
  · rintro (rfl | hcard) hexit
    · obtain ⟨hlayout, hread⟩ := overwrite_empty_rollback h hk hm hchain hexit
      exact ⟨⟨chain, hlayout⟩, hread⟩
    · have := hiff.mp hexit
      omega

/-- The small volume with one file of one byte. -/
def smallDisk : Disk := (fat16WriteFile (smallBpb 6) blankDisk [0x41] (fun _ => 7) 1).2

theorem smallDisk_layout : ∃ chain, Layout (smallBpb 6) smallDisk chain ∧
    ∃ k < slots (smallBpb 6), IsFile (formatFatName [0x41]) (slot (smallBpb 6) smallDisk k) ∧
      chain k ≠ [] := by
  have hblank := blankDisk_layout smallBpb_six (fun _ => [])
  have hw := fat16WriteRun_cases hblank.toSound [0x41] (fun _ => 7) 1
  have hrun : fat16WriteRun (smallBpb 6) blankDisk [0x41] (fun _ => 7) 1 = (.done, smallDisk) :=
    Prod.ext (small_write_done _) (fat16WriteFile_snd ..).symm
  rw [hrun] at hw
  obtain ⟨k, hk, l, hlayout, hslot, hlen⟩ := hw.layout_done hblank
    (headD_formatFatName_ne_zero _) (headD_formatFatName_ne_deleted (by decide))
  refine ⟨_, hlayout, k, hk, ?_, ?_⟩
  · rw [hslot]
    exact ⟨live_newEntry (by decide) _ _, rfl, not_isDir_newEntry _ _ _⟩
  · rw [Function.update_self]
    rintro rfl
    exact absurd hlen (by decide)

/-- The rollback of an overwrite does not bring back the old chain. -/
theorem failed_overwrite_loses_file :
    Consistent (smallBpb 6) smallDisk ∧
    (∃ k < slots (smallBpb 6), IsFile (formatFatName [0x41]) (slot (smallBpb 6) smallDisk k)) ∧
    (fat16WriteRun (smallBpb 6) smallDisk [0x41] (fun _ => 7) 513).1 = .diskFull ∧
    ¬ Consistent (smallBpb 6) (fat16WriteFile (smallBpb 6) smallDisk [0x41] (fun _ => 7) 513).2 := by
  obtain ⟨chain, hlayout, k, hk, hf, hne⟩ := smallDisk_layout
  obtain ⟨e, hchain, _⟩ := hlayout.chains k hk hf.1
  have hm : Matches (formatFatName [0x41]) (slot (smallBpb 6) smallDisk k) := ⟨hf.1, hf.2.1⟩
  have hexit := small_write_diskFull hlayout.toSound ⟨k, hk, .inr hm⟩ (fun _ => 7)
  refine ⟨⟨chain, hlayout⟩, ⟨k, hk, hf⟩, hexit, ?_⟩
  rw [fat16WriteFile_snd]
  exact overwrite_dangling hlayout.toSound hk hm hchain hne hexit

theorem failed_overwrite_keeps_iff_small : ∃ l, l ≠ [] ∧
    (((fat16WriteRun (smallBpb 6) smallDisk [0x41] (fun _ => 7) 513).1 = .diskFull →
      Consistent (smallBpb 6) (fat16WriteFile (smallBpb 6) smallDisk [0x41] (fun _ => 7) 513).2 ∧
        fat16ReadFile (smallBpb 6)
          (fat16WriteFile (smallBpb 6) smallDisk [0x41] (fun _ => 7) 513).2 [0x41] =
            fat16ReadFile (smallBpb 6) smallDisk [0x41]) ↔
      (l = [] ∨ need (smallBpb 6) (513 : UInt32).toNat ≤
        (available (smallBpb 6) smallDisk l).card)) := by
  obtain ⟨chain, hlayout, k, hk, hf, hne⟩ := smallDisk_layout
  obtain ⟨e, hchain, _⟩ := hlayout.chains k hk hf.1
  exact ⟨chain k, hne, failed_overwrite_keeps_iff ⟨chain, hlayout⟩ [0x41] hk ⟨hf.1, hf.2.1⟩ hchain
    (fun _ => 7) 513⟩

end LispDos.Fat16
