import LispDos.Verification.Fat16.Consistency

/-! # Files other than the one written or deleted

A write or a delete changes at most one slot, and the clusters of every other live
entry keep their table entries and their sectors. -/

namespace LispDos.Fat16

open Foundation

variable {b : Bpb} {d d' : Disk} {chain : ℕ → List ℕ} {name : List UInt8}
  {buffer : ℕ → UInt8} {size k : ℕ} {cs : List ℕ}

/-- Valid geometry, a well-formed directory and well-formed chains. -/
def WellFormed (b : Bpb) (d : Disk) : Prop := ∃ chain, Sound b d chain

theorem Consistent.wellFormed (h : Consistent b d) : WellFormed b d := by
  obtain ⟨chain, h⟩ := h
  exact ⟨chain, h.toSound⟩

/-! ## The effect of a delete -/

/-- The outcomes of `fat16_delete_file` on a volume with a layout. -/
inductive DeleteCase (b : Bpb) (d : Disk) (chain : ℕ → List ℕ) (name : List UInt8) :
    ℤ × Disk → Prop where
  | missing (hno : ∀ j < slots b, ¬ IsFile name (slot b d j)) :
      DeleteCase b d chain name (0, d)
  | deleted (k : ℕ) (r : Disk) (hk : k < slots b) (hf : IsFile name (slot b d k))
      (entry : ∀ x < 256 * b.tableSize,
        fat16GetFatEntry b r x = if x ∈ chain k then 0 else fat16GetFatEntry b d x)
      (outside : ∀ s, ¬ InFat b s → s ≠ b.rootDirSector + k / 16 → r s = d s)
      (mirror : Mirror b d → Mirror b r)
      (mark : (slot b r k).mark = 0xE5)
      (others : ∀ j < slots b, j ≠ k → slot b r j = slot b d j) :
      DeleteCase b d chain name (1, r)

theorem fat16DeleteFile_cases (h : Sound b d chain) (filename : List UInt8) :
    DeleteCase b d chain (formatFatName filename) (fat16DeleteFile b d filename) := by
  have hg := h.geometry
  rw [fat16DeleteFile_eq]
  cases hlook : lookup b d (formatFatName filename) with
  | none =>
      apply DeleteCase.missing
      intro j hj hf
      have := h.dir.lookup_eq_some_iff.mpr ⟨hj, hf⟩
      rw [hlook] at this
      cases this
  | some k =>
      obtain ⟨hk, hf⟩ := h.dir.lookup_eq_some_iff.mp hlook
      obtain ⟨e, hchain, _⟩ := h.chains k hk hf.1
      obtain ⟨hedit, hentry⟩ := freeChain_spec hg hchain (fun x hx => h.lt_entries hk hf.1 hx)
      have hfreed : Freed b d _ (chain k) := ⟨hedit, hentry⟩
      have hroot := hedit.outside _ (rootSector_not_inFat b (k / 16))
      have hmod : k % 16 < 16 := Nat.mod_lt _ (by decide)
      have hslot := slot_write (b := b)
        (d := freeChain b d (slot b d k).firstCluster) (k := k)
        ((d (b.rootDirSector + k / 16)).setByte (32 * (k % 16)) 0xE5)
        (fun j hj _ => by rw [dirEntryAt_setMark_of_ne _ hmod hj, hroot])
      have hother : ∀ s, s ≠ b.rootDirSector + k / 16 →
          deleteSlot b d k s = freeChain b d (slot b d k).firstCluster s :=
        fun s hs => if_neg hs
      have hfat : ∀ s, InFat b s →
          deleteSlot b d k s = freeChain b d (slot b d k).firstCluster s := by
        intro s hs
        apply hother
        rintro rfl
        exact rootSector_not_inFat b _ hs
      refine .deleted k (deleteSlot b d k) hk hf ?_ ?_ ?_ ?_ ?_
      · intro x hx
        rw [fatEntry_congr hg hfat hx, hentry x hx]
      · intro s hs hsec
        rw [hother s hsec, hedit.outside s hs]
      · exact fun hm => (hedit.mirror hm).congr hfat
      · rw [deleteSlot, hslot k, if_pos rfl]
        exact mark_setMark _ hmod _
      · intro j hj hjk
        rw [deleteSlot, hslot j, if_neg hjk, hfreed.slot_eq hj]

/-! ## What is kept -/

/-- Everything but slot `k` and what belongs to it is kept. -/
structure Keeps (b : Bpb) (d d' : Disk) (chain : ℕ → List ℕ) (k : ℕ) : Prop where
  others : ∀ j < slots b, j ≠ k → slot b d' j = slot b d j
  entry : ∀ j < slots b, Live (slot b d j) → j ≠ k → ∀ c ∈ chain j,
    fat16GetFatEntry b d' c = fat16GetFatEntry b d c
  data : ∀ j < slots b, Live (slot b d j) → j ≠ k → ∀ c ∈ chain j, ∀ s, InCluster b c s →
    d' s = d s
  reserved : ∀ s < b.reserved, d' s = d s

/-- The clusters a write may take belong to no other live entry. -/
theorem Sound.not_available (h : Sound b d chain) (target : Target b d chain name k cs) {j c : ℕ}
    (hj : j < slots b) (hl : Live (slot b d j)) (hjk : j ≠ k) (hc : c ∈ chain j) :
    c ∉ available b d cs := by
  intro hin
  rcases (mem_available.mp hin).2 with hz | hcs
  · exact h.entry_ne_zero hj hl hc hz
  · exact target.not_mem h hj hl hjk hc hcs

/-- A disk that differs outside the tables only in the sector of slot `k` and in
clusters available to the write keeps everything else. -/
theorem Sound.keeps (h : Sound b d chain) (target : Target b d chain name k cs) {l : List ℕ}
    (hl : ∀ c ∈ l, c ∈ available b d cs)
    (hentry : ∀ x < 256 * b.tableSize, x ∉ l →
      fat16GetFatEntry b d' x = if x ∈ cs then 0 else fat16GetFatEntry b d x)
    (hout : ∀ s, ¬ InFat b s → s ≠ b.rootDirSector + k / 16 →
      (∀ c ∈ l, ¬ InCluster b c s) → d' s = d s)
    (hslots : ∀ j < slots b, j ≠ k → slot b d' j = slot b d j) : Keeps b d d' chain k := by
  have hnot : ∀ j < slots b, Live (slot b d j) → j ≠ k → ∀ c ∈ chain j, c ∉ l :=
    fun j hj hlj hjk c hc hcl => h.not_available target hj hlj hjk hc (hl c hcl)
  constructor
  · exact hslots
  · intro j hj hlj hjk c hc
    rw [hentry c (h.lt_entries hj hlj hc) (hnot j hj hlj hjk c hc),
      if_neg (target.not_mem h hj hlj hjk hc)]
  · intro j hj hlj hjk c hc s hs
    apply hout s hs.not_inFat
    · rintro rfl
      exact rootSector_not_inCluster target.lt c hs
    · intro x hx hin
      have hx2 := (mem_available.mp (hl x hx)).1.1
      have hcx := InCluster.unique hs hin (h.two_le hj hlj hc) hx2
      exact hnot j hj hlj hjk c hc (hcx ▸ hx)
  · intro s hs
    have h₁ := rootDirSector_le_dataSector b
    have h₂ : b.reserved ≤ b.rootDirSector := Nat.le_add_right _ _
    apply hout s (fun hf => absurd hf.1 (by omega)) (by omega)
    intro c _ hin
    have := hin.dataSector_le
    omega

/-- A file that slot `k` neither was nor becomes is found where it was, with the same
size and contents. -/
theorem Keeps.isolates (hk : Keeps b d d' chain k) (h : Sound b d chain) (hd' : DirOk b d')
    (hbefore : ¬ IsFile name (slot b d k)) (hafter : ¬ IsFile name (slot b d' k)) :
    lookup b d' name = lookup b d name ∧
      ∀ j, lookup b d name = some j → slot b d' j = slot b d j ∧
        ∀ size, readChain b d' (slot b d j).firstCluster size =
          readChain b d (slot b d j).firstCluster size := by
  have hiff : ∀ j, lookup b d' name = some j ↔ lookup b d name = some j := by
    intro j
    rw [hd'.lookup_eq_some_iff, h.dir.lookup_eq_some_iff]
    refine and_congr_right ?_
    intro hj
    by_cases hjk : j = k
    · subst j
      exact iff_of_false hafter hbefore
    · rw [hk.others j hj hjk]
  refine ⟨Option.ext hiff, ?_⟩
  intro j hj
  obtain ⟨hlt, hf⟩ := h.dir.lookup_eq_some_iff.mp hj
  have hjk : j ≠ k := by
    rintro rfl
    exact hbefore hf
  obtain ⟨e, hchain, _⟩ := h.chains j hlt hf.1
  refine ⟨hk.others j hlt hjk, ?_⟩
  intro size
  exact readChain_congr hchain (hk.entry j hlt hf.1 hjk) (hk.data j hlt hf.1 hjk)

/-- The size and the contents read under a name are unchanged. -/
def SameFile (b : Bpb) (d d' : Disk) (filename : List UInt8) : Prop :=
  fat16GetFileSize b d' filename = fat16GetFileSize b d filename ∧
    fat16ReadFile b d' filename = fat16ReadFile b d filename

theorem Keeps.sameFile (hk : Keeps b d d' chain k) (h : Sound b d chain) (hd' : DirOk b d')
    {filename : List UInt8} (hbefore : ¬ IsFile (formatFatName filename) (slot b d k))
    (hafter : ¬ IsFile (formatFatName filename) (slot b d' k)) : SameFile b d d' filename := by
  obtain ⟨hlook, hsame⟩ := hk.isolates h hd' hbefore hafter
  cases hl : lookup b d (formatFatName filename) with
  | none =>
      constructor
      · rw [fat16GetFileSize_eq, fat16GetFileSize_eq, hlook, hl, Option.elim_none, Option.elim_none]
      · rw [fat16ReadFile_eq, fat16ReadFile_eq, hlook, hl, Option.elim_none, Option.elim_none]
  | some j =>
      obtain ⟨hslot, hread⟩ := hsame j hl
      constructor
      · rw [fat16GetFileSize_eq, fat16GetFileSize_eq, hlook, hl, Option.elim_some, Option.elim_some,
          hslot]
      · rw [fat16ReadFile_eq, fat16ReadFile_eq, hlook, hl, Option.elim_some, Option.elim_some,
          hslot, hread]

/-! ## Writes -/

theorem mark_of_name {e : DirEntry} {n : List UInt8} (h : e.name = n) : e.mark = n.headD 0 := by
  rw [DirEntry.mark, h]

/-- The directory stays well formed through a completed write. -/
theorem Target.dirOk (target : Target b d chain name k cs) (hd : DirOk b d)
    (hname : name.headD 0 ≠ 0) (hstored : (slot b d' k).name = name)
    (hothers : ∀ j < slots b, j ≠ k → slot b d' j = slot b d j) : DirOk b d' := by
  refine hd.update target.lt hothers ?_ ?_ ?_
  · rw [mark_of_name hstored]
    exact hname
  · intro _ j hj
    exact target.mark_ne_zero hd hj
  · intro _ j hj hjk hl
    rw [hstored]
    exact target.name_ne hd hj hl hjk

/-- Before a write its slot is free or bears the written name. -/
theorem Target.not_isFile (target : Target b d chain name k cs) {other : List UInt8}
    (hne : name ≠ other) : ¬ IsFile other (slot b d k) := by
  intro hf
  cases target with
  | existing _ hm => exact hne (hm.2.symm.trans hf.2.1)
  | fresh _ hfree _ _ => exact hfree hf.1

/-- A write that runs out of space leaves every slot as it was. -/
theorem slot_of_diskFull {l : List ℕ}
    (outside : ∀ s, ¬ InFat b s → (∀ c ∈ l, ¬ InCluster b c s) → d' s = d s) {j : ℕ}
    (hj : j < slots b) : slot b d' j = slot b d j := by
  apply slot_congr _ hj
  intro s h₁ h₂
  apply outside s (fun hf => absurd hf.2 (by omega))
  intro c _ hin
  exact absurd hin.dataSector_le (by omega)

theorem WriteCase.sameFile (h : Sound b d chain) {r : WriteExit × Disk}
    (hname : name.headD 0 ≠ 0) (hw : WriteCase b d chain name buffer size r)
    {filename : List UInt8} (hne : name ≠ formatFatName filename) :
    SameFile b d r.2 filename ∧ ∀ s < b.reserved, r.2 s = d s := by
  cases hw with
  | rootFull _ _ => exact ⟨⟨rfl, rfl⟩, fun _ _ => rfl⟩
  | diskFull k cs l r target hcard hl entry outside mirror =>
      have hslot := fun j (hj : j < slots b) => slot_of_diskFull outside hj
      have hkeep := h.keeps target hl (fun x hx _ => entry x hx) (fun s hs _ hc => outside s hs hc)
        (fun j hj _ => hslot j hj)
      refine ⟨hkeep.sameFile h (h.dir.congr hslot) (target.not_isFile hne) ?_, hkeep.reserved⟩
      rw [hslot k target.lt]
      exact target.not_isFile hne
  | done k cs l r target hlen hcard hl new entry outside mirror stored others data =>
      have hstored : (slot b r k).name = name := by rw [stored]; rfl
      have hkeep := h.keeps target hl entry outside others
      refine ⟨hkeep.sameFile h (target.dirOk h.dir hname hstored others)
        (target.not_isFile hne) ?_, hkeep.reserved⟩
      intro hf
      exact hne (hstored.symm.trans hf.2.1)

/-! ## Deletes -/

theorem not_live_of_deleted {e : DirEntry} (h : e.mark = 0xE5) : ¬ Live e :=
  fun hl => hl.2 h

theorem DeleteCase.dirOk (h : Sound b d chain) {r : ℤ × Disk}
    (hd : DeleteCase b d chain name r) : DirOk b r.2 := by
  cases hd with
  | missing _ => exact h.dir
  | deleted k r hk hf entry outside mirror mark others =>
      have hdead := not_live_of_deleted mark
      refine h.dir.update hk others ?_ (fun hl => absurd hl hdead) (fun hl => absurd hl hdead)
      rw [mark]
      decide

theorem DeleteCase.sameFile (h : Sound b d chain) {r : ℤ × Disk}
    (hd : DeleteCase b d chain name r) {filename : List UInt8}
    (hne : name ≠ formatFatName filename) :
    SameFile b d r.2 filename ∧ ∀ s < b.reserved, r.2 s = d s := by
  have hdir := hd.dirOk h
  cases hd with
  | missing _ => exact ⟨⟨rfl, rfl⟩, fun _ _ => rfl⟩
  | deleted k r hk hf entry outside mirror mark others =>
      have target : Target b d chain name k (chain k) := .existing k hk ⟨hf.1, hf.2.1⟩
      have hkeep := h.keeps target (l := []) (by simp) (fun x hx _ => entry x hx)
        (fun s hs hsec _ => outside s hs hsec) others
      refine ⟨hkeep.sameFile h hdir (target.not_isFile hne) ?_, hkeep.reserved⟩
      exact fun hf => not_live_of_deleted mark hf.1

/-- Writing or deleting one file leaves the size and the contents of every file of
another name, the boot sector and the reserved sectors as they were, whatever the
outcome. -/
theorem other_files_unchanged (h : WellFormed b d) (filename other : List UInt8)
    (hne : formatFatName filename ≠ formatFatName other) :
    (∀ (buffer : ℕ → UInt8) (size : UInt32),
      SameFile b d (fat16WriteFile b d filename buffer size).2 other ∧
        ∀ s < b.reserved, (fat16WriteFile b d filename buffer size).2 s = d s) ∧
    SameFile b d (fat16DeleteFile b d filename).2 other ∧
      ∀ s < b.reserved, (fat16DeleteFile b d filename).2 s = d s := by
  obtain ⟨chain, h⟩ := h
  constructor
  · intro buffer size
    rw [fat16WriteFile_snd]
    exact (fat16WriteRun_cases h filename buffer size).sameFile h
      (headD_formatFatName_ne_zero filename) hne
  · exact (fat16DeleteFile_cases h filename).sameFile h hne

theorem other_files_unchanged_small :
    SameFile (smallBpb 6) blankDisk
      (fat16WriteFile (smallBpb 6) blankDisk [0x41] (fun _ => 7) 5).2 [0x42] :=
  ((other_files_unchanged ⟨fun _ => [], (blankDisk_layout smallBpb_six _).toSound⟩ [0x41] [0x42]
    (by decide)).1 (fun _ => 7) 5).1

end LispDos.Fat16
