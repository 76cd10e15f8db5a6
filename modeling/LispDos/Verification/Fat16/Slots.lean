import LispDos.Verification.Fat16.Directory

/-! # Storing directory entries

What the two stores into the root directory do to the slots, and the directory
invariant they keep: nothing live after the end mark, and no name twice. -/

namespace LispDos.Fat16

/-! ## One entry of a sector -/

theorem byte_storeBytes (s : Sector) (a : ℕ) (f : ℕ → UInt8) {n : ℕ} (h : a + n ≤ 512) (p : ℕ) :
    Sector.byte ((List.range n).foldl (fun s j => s.setByte (a + j) (f j)) s) p =
      if a ≤ p ∧ p < a + n then f (p - a) else s.byte p := by
  induction n with
  | zero => rw [if_neg (by omega)]; rfl
  | succ n ih =>
      rw [List.range_succ, List.foldl_append, List.foldl_cons, List.foldl_nil,
        Sector.byte_setByte _ (by omega), ih (by omega)]
      by_cases hp : p = a + n
      · subst p
        rw [if_pos rfl, if_pos (by omega), Nat.add_sub_cancel_left]
      · rw [if_neg hp]
        by_cases hin : a ≤ p ∧ p < a + n
        · rw [if_pos hin, if_pos (by omega)]
        · rw [if_neg hin, if_neg (by omega)]

/-- Entries depend on the bytes of their own slot only. -/
theorem dirEntryAt_congr {s t : Sector} {i : ℕ}
    (h : ∀ p, 32 * i ≤ p → p < 32 * i + 32 → s.byte p = t.byte p) :
    dirEntryAt s i = dirEntryAt t i := by
  have hname : (List.range 11).map (fun j => s.byte (32 * i + j)) =
      (List.range 11).map (fun j => t.byte (32 * i + j)) := by
    apply List.map_congr_left
    intro j hj
    have := List.mem_range.mp hj
    exact h _ (by omega) (by omega)
  have h16 : ∀ q, 32 * i ≤ q → q + 1 < 32 * i + 32 → s.le16 q = t.le16 q := by
    intro q h₁ h₂
    exact Sector.le16_congr (h q h₁ (by omega)) (h (q + 1) (by omega) h₂)
  simp only [dirEntryAt, Sector.le32, hname, h (32 * i + 11) (by omega) (by omega),
    h16 (32 * i + 26) (by omega) (by omega), h16 (32 * i + 28) (by omega) (by omega),
    h16 (32 * i + 28 + 2) (by omega) (by omega)]

theorem byte_storeDirEntry_of_outside (s : Sector) {i : ℕ} (hi : i < 16) (e : DirEntry) {p : ℕ}
    (hp : p < 32 * i ∨ 32 * i + 32 ≤ p) : (storeDirEntry s i e).byte p = s.byte p := by
  simp only [storeDirEntry]
  rw [Sector.byte_setLe32 _ (by omega) (by omega), Sector.byte_setLe16 _ (by omega),
    if_neg (by omega), if_neg (by omega), Sector.byte_setByte _ (by omega), if_neg (by omega),
    byte_storeBytes _ _ _ (by omega), if_neg (by omega)]

theorem dirEntryAt_store_of_ne (s : Sector) {i j : ℕ} (hi : i < 16) (hij : j ≠ i)
    (e : DirEntry) : dirEntryAt (storeDirEntry s i e) j = dirEntryAt s j := by
  apply dirEntryAt_congr
  intro p h₁ h₂
  exact byte_storeDirEntry_of_outside s hi e (by omega)

/-- An entry whose fields fit their widths is read back as it was stored. -/
theorem dirEntryAt_store_self (s : Sector) {i : ℕ} (hi : i < 16) {e : DirEntry}
    (hname : e.name.length = 11) (hfirst : e.firstCluster < 65536) (hsize : e.fileSize < 2 ^ 32) :
    dirEntryAt (storeDirEntry s i e) i = e := by
  have hbyte : ∀ p, 32 * i ≤ p → p < 32 * i + 12 →
      (storeDirEntry s i e).byte p =
        if p = 32 * i + 11 then e.attributes else e.name.getD (p - 32 * i) 0 := by
    intro p h₁ h₂
    simp only [storeDirEntry]
    rw [Sector.byte_setLe32 _ (by omega) (by omega), Sector.byte_setLe16 _ (by omega),
      if_neg (by omega), if_neg (by omega), Sector.byte_setByte _ (by omega),
      byte_storeBytes _ _ _ (by omega)]
    split
    · rfl
    · rw [if_pos (by omega)]
  have hstored : (dirEntryAt (storeDirEntry s i e) i).name = e.name := by
    apply List.ext_getElem
    · simp [dirEntryAt, hname]
    · intro j h₁ h₂
      simp only [dirEntryAt, List.getElem_map, List.getElem_range]
      rw [hbyte _ (by omega) (by omega), if_neg (by omega), Nat.add_sub_cancel_left]
      simp [h₂]
  have hattr : (dirEntryAt (storeDirEntry s i e) i).attributes = e.attributes := by
    simp only [dirEntryAt]
    rw [hbyte _ (by omega) (by omega), if_pos rfl]
  have hcluster : (dirEntryAt (storeDirEntry s i e) i).firstCluster = e.firstCluster := by
    simp only [dirEntryAt, storeDirEntry, Sector.setLe32]
    rw [Sector.le16_setLe16_of_disjoint _ (by omega) (by omega),
      Sector.le16_setLe16_of_disjoint _ (by omega) (by omega),
      Sector.le16_setLe16_self _ (by omega) hfirst]
  have hfile : (dirEntryAt (storeDirEntry s i e) i).fileSize = e.fileSize := by
    simp only [dirEntryAt, storeDirEntry]
    rw [Sector.le32_setLe32_self _ (by omega) hsize]
  exact DirEntry.mk.injEq .. |>.mpr ⟨hstored, hattr, hcluster, hfile⟩

/-- The entry that is stored at the front of an empty root directory is in slot 0. -/
theorem slot_zero_of_store {b : Bpb} {d : Disk} {e : DirEntry}
    (hroot : d b.rootDirSector = storeDirEntry Sector.zero 0 e) (hname : e.name.length = 11)
    (hfirst : e.firstCluster < 65536) (hsize : e.fileSize < 2 ^ 32) : slot b d 0 = e := by
  have hslot : slot b d 0 = dirEntryAt (d b.rootDirSector) 0 := rfl
  rw [hslot, hroot]
  exact dirEntryAt_store_self _ (by decide) hname hfirst hsize

theorem lookup_eq_zero {b : Bpb} {d : Disk} {name : List UInt8} (hslots : 0 < slots b)
    (hfile : IsFile name (slot b d 0)) : lookup b d name = some 0 := by
  rw [lookup_eq_some_iff]
  exact ⟨hslots, hfile, fun j hj => absurd hj (Nat.not_lt_zero j)⟩

theorem mark_dirEntryAt (s : Sector) (i : ℕ) : (dirEntryAt s i).mark = s.byte (32 * i) := by
  simp [DirEntry.mark, dirEntryAt, List.range_succ_eq_map]

theorem dirEntryAt_setMark_of_ne (s : Sector) {i j : ℕ} (hi : i < 16) (hij : j ≠ i) (x : UInt8) :
    dirEntryAt (s.setByte (32 * i) x) j = dirEntryAt s j := by
  apply dirEntryAt_congr
  intro p h₁ h₂
  rw [Sector.byte_setByte _ (by omega), if_neg (by omega)]

theorem mark_setMark (s : Sector) {i : ℕ} (hi : i < 16) (x : UInt8) :
    (dirEntryAt (s.setByte (32 * i) x) i).mark = x := by
  rw [mark_dirEntryAt, Sector.byte_setByte _ (by omega), if_pos rfl]

/-! ## Names -/

theorem length_padName (width : ℕ) (cs : List UInt8) : (padName width cs).length = width := by
  simp [padName]

theorem length_formatFatName (filename : List UInt8) : (formatFatName filename).length = 11 := by
  simp [formatFatName, length_padName]

theorem fatUpper_ne_zero {c : UInt8} (h : c ≠ 0) : fatUpper c ≠ 0 := by
  simp only [fatUpper]
  split
  · rename_i hc
    intro hz
    have h₁ := UInt8.le_iff_toNat_le.mp hc.1
    have h₂ : c.toNat - 32 = 0 := by
      have hle : (32 : UInt8) ≤ c := UInt8.le_iff_toNat_le.mpr (le_trans (by decide) h₁)
      have := congrArg UInt8.toNat hz
      rwa [UInt8.toNat_sub_of_le _ _ hle] at this
    have h₃ : (0x61 : UInt8).toNat = 97 := rfl
    omega
  · exact h

/-- A formatted name starts with the first byte of the name, in upper case, or with a space. -/
theorem headD_formatFatName_ne {x : UInt8} {filename : List UInt8} (hspace : 0x20 ≠ x)
    (h : ∀ c ∈ filename.head?, c ≠ 0 → fatUpper c ≠ x) :
    (formatFatName filename).headD 0 ≠ x := by
  cases filename with
  | nil =>
      have hpad : (formatFatName []).headD 0 = 0x20 := by decide
      rwa [hpad]
  | cons c cs =>
      by_cases hstop : c = 0 ∨ c = 0x2E
      · simpa [formatFatName, formatChars, hstop, padName, List.replicate_succ] using hspace
      · have hc : c ≠ 0 := fun hz => hstop (.inl hz)
        simpa [formatFatName, formatChars, hstop, padName, List.replicate_succ] using
          h c (by simp) hc

/-- A formatted name never starts with the end mark. -/
theorem headD_formatFatName_ne_zero (filename : List UInt8) :
    (formatFatName filename).headD 0 ≠ 0 := by
  apply headD_formatFatName_ne (by decide)
  intro c _ hc
  exact fatUpper_ne_zero hc

/-! ## The directory invariant -/

/-- Nothing is live after the first end mark, and live names are pairwise distinct. -/
structure DirOk (b : Bpb) (d : Disk) : Prop where
  ended : ∀ i j, i < j → j < slots b → (slot b d i).mark = 0 → ¬ Live (slot b d j)
  distinct : ∀ i j, i < slots b → j < slots b → Live (slot b d i) → Live (slot b d j) →
    (slot b d i).name = (slot b d j).name → i = j

section Directory

variable {b : Bpb} {d : Disk} {name : List UInt8} {k : ℕ}

theorem DirOk.mark_ne_zero (h : DirOk b d) (hk : k < slots b) (hl : Live (slot b d k)) {j : ℕ}
    (hj : j < k) : (slot b d j).mark ≠ 0 := by
  intro hz
  exact h.ended j k hj hk hz hl

/-- In a well-formed directory a name denotes the one file that bears it. -/
theorem DirOk.lookup_eq_some_iff (h : DirOk b d) :
    lookup b d name = some k ↔ k < slots b ∧ IsFile name (slot b d k) := by
  rw [Fat16.lookup_eq_some_iff]
  constructor
  · rintro ⟨hk, hf, _⟩
    exact ⟨hk, hf⟩
  · rintro ⟨hk, hf⟩
    refine ⟨hk, hf, ?_⟩
    intro j hj
    refine ⟨h.mark_ne_zero hk hf.1 hj, ?_⟩
    intro hfj
    have := h.distinct j k (by omega) hk hfj.1 hf.1 (hfj.2.1.trans hf.2.1.symm)
    omega

theorem DirOk.writeFinds_iff (h : DirOk b d) :
    WriteFinds b d name k ↔ k < slots b ∧ Matches name (slot b d k) := by
  constructor
  · rintro ⟨⟨hk, hm, _⟩, _⟩
    exact ⟨hk, hm⟩
  · rintro ⟨hk, hm⟩
    refine ⟨⟨hk, hm, fun j hj _ => h.mark_ne_zero hk hm.1 hj⟩, ?_⟩
    rintro j hj ⟨hj', hmj, _⟩
    have := h.distinct j k hj' hk hmj.1 hm.1 (hmj.2.trans hm.2.symm)
    omega

/-- The three outcomes of the slot search in a well-formed directory. -/
inductive SlotCase (b : Bpb) (d : Disk) (name : List UInt8) : WriteSlot → Prop where
  | existing (k : ℕ) (hk : k < slots b) (hm : Matches name (slot b d k)) :
      SlotCase b d name (.existing (k / 16) (k % 16))
  | fresh (k : ℕ) (hk : k < slots b) (hfree : ¬ Live (slot b d k))
      (hlive : ∀ j < k, Live (slot b d j))
      (hno : ∀ j < slots b, ¬ Matches name (slot b d j)) :
      SlotCase b d name (.free (some (k / 16, k % 16)))
  | full (hlive : ∀ j < slots b, Live (slot b d j))
      (hno : ∀ j < slots b, ¬ Matches name (slot b d j)) :
      SlotCase b d name (.free none)

theorem DirOk.writeSlot_cases (h : DirOk b d) (name : List UInt8) :
    SlotCase b d name (writeSlot b d name) := by
  have hno : ∀ t, writeSlot b d name = .free t → ∀ j < slots b, ¬ Matches name (slot b d j) := by
    intro t ht j hj hm
    exact writeSlot_free_not_visible ht j (h.writeFinds_iff.mpr ⟨hj, hm⟩).1
  cases hs : writeSlot b d name with
  | existing sec i =>
      obtain ⟨hi, hf⟩ := (writeSlot_existing_iff b d name sec i).mp hs
      obtain ⟨hk, hm⟩ := h.writeFinds_iff.mp hf
      have hcase := SlotCase.existing (16 * sec + i) hk hm
      have h₁ : (16 * sec + i) / 16 = sec := by omega
      have h₂ : (16 * sec + i) % 16 = i := by omega
      rwa [h₁, h₂] at hcase
  | free t =>
      cases t with
      | none => exact .full (writeSlot_free_none hs) (hno _ hs)
      | some p =>
          obtain ⟨sec, i⟩ := p
          obtain ⟨k, hk, rfl, rfl, hfree, hlive⟩ := writeSlot_free_some hs
          exact .fresh k hk hfree hlive (hno _ hs)

/-- Slots depend on the root directory sectors only. -/
theorem slot_congr {d' : Disk}
    (h : ∀ s, b.rootDirSector ≤ s → s < b.dataSector → d' s = d s) (hk : k < slots b) :
    slot b d' k = slot b d k := by
  have hlt : b.rootDirSector + k / 16 < b.dataSector := by
    simp only [slots, Bpb.dataSector] at *
    omega
  rw [slot, h _ (Nat.le_add_right _ _) hlt, slot]

theorem DirOk.congr {d' : Disk} (h : DirOk b d) (hs : ∀ k < slots b, slot b d' k = slot b d k) :
    DirOk b d' := by
  constructor
  · intro i j hij hj hi
    rw [hs i (by omega)] at hi
    rw [hs j hj]
    exact h.ended i j hij hj hi
  · intro i j hi hj
    rw [hs i hi, hs j hj]
    exact h.distinct i j hi hj

/-- Rewriting the sector of a slot changes that slot only. -/
theorem slot_write (s : Sector) (hother : ∀ j, j ≠ k % 16 → j < 16 →
      dirEntryAt s j = dirEntryAt (d (b.rootDirSector + k / 16)) j) (j : ℕ) :
    slot b (ataWriteSector d (b.rootDirSector + k / 16) s) j =
      if j = k then dirEntryAt s (k % 16) else slot b d j := by
  by_cases hjk : j = k
  · subst j
    rw [if_pos rfl]
    simp only [slot, ataWriteSector, if_true]
  · rw [if_neg hjk]
    simp only [slot, ataWriteSector]
    by_cases hsec : j / 16 = k / 16
    · rw [hsec, if_pos rfl, hother _ (by omega) (by omega)]
    · rw [if_neg (by omega)]

/-- Storing an entry whose fields fit their widths sets its slot and no other. -/
theorem slot_store {e : DirEntry} (hname : e.name.length = 11) (hfirst : e.firstCluster < 65536)
    (hsize : e.fileSize < 2 ^ 32) (j : ℕ) :
    slot b (ataWriteSector d (b.rootDirSector + k / 16)
      (storeDirEntry (d (b.rootDirSector + k / 16)) (k % 16) e)) j =
        if j = k then e else slot b d j := by
  have hi : k % 16 < 16 := Nat.mod_lt _ (by decide)
  rw [slot_write _ (fun j hj _ => dirEntryAt_store_of_ne _ hi hj e) j,
    dirEntryAt_store_self _ hi hname hfirst hsize]

/-- A directory stays well formed when one slot gets an entry that is live only under
a name no other slot bears, no earlier slot is the end mark, and the slot does not
itself become the end mark. -/
theorem DirOk.update {d' : Disk} (h : DirOk b d) (hk : k < slots b)
    (hother : ∀ j < slots b, j ≠ k → slot b d' j = slot b d j)
    (hmark : (slot b d' k).mark ≠ 0)
    (hbefore : Live (slot b d' k) → ∀ j < k, (slot b d j).mark ≠ 0)
    (hname : Live (slot b d' k) →
      ∀ j < slots b, j ≠ k → Live (slot b d j) → (slot b d j).name ≠ (slot b d' k).name) :
    DirOk b d' := by
  constructor
  · intro i j hij hj hi hl
    have hik : i ≠ k := by
      rintro rfl
      exact hmark hi
    rw [hother i (by omega) hik] at hi
    by_cases hjk : j = k
    · subst j
      exact hbefore hl i hij hi
    · rw [hother j hj hjk] at hl
      exact h.ended i j hij hj hi hl
  · intro i j hi hj hli hlj heq
    by_cases hik : i = k
    · by_cases hjk : j = k
      · rw [hik, hjk]
      · subst i
        rw [hother j hj hjk] at hlj heq
        exact (hname hli j hj hjk hlj heq.symm).elim
    · rw [hother i hi hik] at hli heq
      by_cases hjk : j = k
      · subst j
        exact (hname hlj i hi hik hli heq).elim
      · rw [hother j hj hjk] at hlj heq
        exact h.distinct i j hi hj hli hlj heq

end Directory

end LispDos.Fat16
