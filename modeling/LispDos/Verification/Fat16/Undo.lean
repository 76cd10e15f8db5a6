import LispDos.Verification.Fat16.Runs

/-! # Creating and deleting a file

Deleting a new file frees exactly the clusters that its write has taken, in both tables, and
its slot is not live any more, as before the write. -/

namespace LispDos.Fat16

variable {b : Bpb} {d d' : Disk} {chain : ℕ → List ℕ} {name filename : List UInt8} {k : ℕ}

/-- The live entries of the root directory, in order. -/
def liveEntries (b : Bpb) (d : Disk) : List DirEntry :=
  ((List.range (slots b)).map (slot b d)).filter fun e => Live e

/-- A slot that is live on neither disk contributes nothing. -/
theorem liveEntries_eq (hothers : ∀ j < slots b, j ≠ k → slot b d' j = slot b d j)
    (hdead : ¬ Live (slot b d k)) (hdead' : ¬ Live (slot b d' k)) :
    liveEntries b d' = liveEntries b d := by
  have hpre : ∀ n ≤ slots b, ((List.range n).map (slot b d')).filter (fun e => Live e) =
      ((List.range n).map (slot b d)).filter (fun e => Live e) := by
    intro n hn
    induction n with
    | zero => rfl
    | succ n ih =>
        rw [List.range_succ, List.map_append, List.map_append, List.filter_append,
          List.filter_append, ih (by omega)]
        by_cases hnk : n = k
        · subst hnk
          simp [hdead, hdead']
        · rw [List.map_singleton, List.map_singleton, hothers n (by omega) hnk]
  exact hpre _ le_rfl

/-- A name that is new stays without a file if one slot changes and is not live. -/
theorem not_isFile_of_others (hothers : ∀ j < slots b, j ≠ k → slot b d' j = slot b d j)
    (hdead' : ¬ Live (slot b d' k)) (hnew : ∀ j < slots b, ¬ Matches name (slot b d j)) :
    ∀ j < slots b, ¬ IsFile name (slot b d' j) := by
  intro j hj hfile
  by_cases hjk : j = k
  · subst hjk
    exact hdead' hfile.1
  · rw [hothers j hj hjk] at hfile
    exact hnew j hj ⟨hfile.1, hfile.2.1⟩

/-- Without a file of the name the other functions find nothing. -/
theorem not_found (h : DirOk b d) (hno : ∀ j < slots b, ¬ IsFile (formatFatName filename) (slot b d j)) :
    fat16GetFileSize b d filename = 0 ∧ fat16ReadFile b d filename = some (0, []) ∧
      fat16DeleteFile b d filename = (0, d) := by
  have hlookup : lookup b d (formatFatName filename) = none := by
    apply Option.eq_none_iff_forall_ne_some.mpr
    intro j hj
    obtain ⟨hj, hf⟩ := h.lookup_eq_some_iff.mp hj
    exact hno j hj hf
  rw [fat16GetFileSize_eq, fat16ReadFile_eq, fat16DeleteFile_eq, hlookup]
  exact ⟨rfl, rfl, rfl⟩

/-- A new file that has been written completely and is deleted again leaves no trace in the
tables and in the live part of the directory. -/
theorem delete_undoes_create (h : Consistent b d) (hname : filename.head? ≠ some 0xE5)
    (hnew : ∀ j < slots b, ¬ Matches (formatFatName filename) (slot b d j))
    (buffer : ℕ → UInt8) (size : UInt32)
    (hdone : (fat16WriteRun b d filename buffer size).1 = .done) :
    (fat16DeleteFile b (fat16WriteFile b d filename buffer size).2 filename).1 = 1 ∧
      (∀ s, InFat b s →
        (fat16DeleteFile b (fat16WriteFile b d filename buffer size).2 filename).2 s = d s) ∧
      liveEntries b (fat16DeleteFile b (fat16WriteFile b d filename buffer size).2 filename).2 =
        liveEntries b d ∧
      fat16GetFileSize b
        (fat16DeleteFile b (fat16WriteFile b d filename buffer size).2 filename).2 filename = 0 ∧
      fat16ReadFile b
        (fat16DeleteFile b (fat16WriteFile b d filename buffer size).2 filename).2 filename =
        some (0, []) ∧
      (fat16DeleteFile b
        (fat16DeleteFile b (fat16WriteFile b d filename buffer size).2 filename).2 filename).1 =
        0 := by
  obtain ⟨chain, h⟩ := h
  have hmark := headD_formatFatName_ne_zero filename
  have hmark' := headD_formatFatName_ne_deleted hname
  have hw := fat16WriteRun_cases h.toSound filename buffer size
  rw [fat16WriteFile_snd]
  generalize fat16WriteRun b d filename buffer size = w at hw hdone
  obtain ⟨exit, w⟩ := w
  obtain rfl : exit = .done := hdone
  obtain ⟨_, _, _, hlayout, _⟩ := hw.layout_done h hmark hmark'
  cases hw with
  | done k cs l _ target hlen hcard hl new entry outside mirror stored others data =>
      obtain ⟨rfl, hfree⟩ := target.eq_nil_of_new hnew
      have hk := target.lt
      have hlive : Live (slot b w k) := by
        rw [stored]
        exact ⟨hmark, hmark'⟩
      have hstored : (slot b w k).name = formatFatName filename := by
        rw [stored]
        rfl
      have hfirst : (slot b w k).firstCluster = l.headD 0 := by
        rw [stored]
        rfl
      have hchain := hlayout.toSound.chain_unique hk hlive (by rw [hfirst]; exact new)
      have hdelete := fat16DeleteFile_cases hlayout.toSound filename
      have hdir := hdelete.dirOk hlayout.toSound
      generalize fat16DeleteFile b w filename = r at hdelete hdir
      cases hdelete with
      | missing hno =>
          refine (hno k hk ⟨hlive, hstored, ?_⟩).elim
          rw [stored]
          exact not_isDir_newEntry _ _ _
      | deleted j r hj hf entry' outside' mirror' mark' others' =>
          -- the deleted file is the new one
          obtain rfl := hlayout.dir.distinct j k hj hk hf.1 hlive (hf.2.1.trans hstored.symm)
          have hothers : ∀ i < slots b, i ≠ j → slot b r i = slot b d i :=
            fun i hi hij => (others' i hi hij).trans (others i hi hij)
          have hdead := not_live_of_deleted mark'
          obtain ⟨hsize, hread, hagain⟩ := not_found hdir (not_isFile_of_others hothers hdead hnew)
          have hentries : ∀ x < 256 * b.tableSize, fat16GetFatEntry b r x = fat16GetFatEntry b d x := by
            intro x hx
            rw [entry' x hx, hchain]
            by_cases hxl : x ∈ l
            · -- the clusters of the new file were free
              have hzero := (mem_available.mp (hl x hxl)).2
              rw [if_pos hxl]
              exact (hzero.resolve_right (by simp)).symm
            · rw [if_neg hxl, entry x hx hxl, if_neg (by simp)]
          refine ⟨rfl, fun s hs => ?_, liveEntries_eq hothers hfree hdead, hsize, hread, by rw [hagain]⟩
          exact inFat_eq_of_entries h.geometry h.mirror (mirror' (mirror h.mirror)) hentries hs

theorem delete_undoes_create_small :
    (fat16DeleteFile (smallBpb 6)
        (fat16WriteFile (smallBpb 6) blankDisk [0x41] (fun _ => 7) 1).2 [0x41]).1 = 1 ∧
      ∀ s, InFat (smallBpb 6) s → (fat16DeleteFile (smallBpb 6)
        (fat16WriteFile (smallBpb 6) blankDisk [0x41] (fun _ => 7) 1).2 [0x41]).2 s =
          blankDisk s := by
  obtain ⟨hresult, htables, _⟩ := delete_undoes_create
    ⟨fun _ => [], blankDisk_layout smallBpb_six _⟩ (by decide)
    (fun j _ hm => slot_blankDisk_not_live _ j hm.1) (fun _ => 7) 1 (small_write_done _)
  exact ⟨hresult, htables⟩

end LispDos.Fat16
