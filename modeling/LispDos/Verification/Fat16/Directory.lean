import LispDos.Verification.Fat16.Geometry

/-! # The root directory as one sequence of slots

Slot `k` is entry `k % 16` of root sector `k / 16`. Each of the four scans of the
source is characterised over slots. -/

namespace LispDos.Fat16

/-- The directory entry in slot `k`. -/
def slot (b : Bpb) (d : Disk) (k : ℕ) : DirEntry :=
  dirEntryAt (d (b.rootDirSector + k / 16)) (k % 16)

/-- The slot holds an entry: it is neither the end mark nor deleted. -/
def Live (e : DirEntry) : Prop := e.mark ≠ 0 ∧ e.mark ≠ 0xE5

instance : DecidablePred Live := fun e =>
  inferInstanceAs (Decidable (e.mark ≠ 0 ∧ e.mark ≠ 0xE5))

/-- The attribute test `entries[i].attributes & 0x10`. -/
def IsDir (e : DirEntry) : Prop := e.attributes &&& 0x10 ≠ 0

instance : DecidablePred IsDir := fun e => inferInstanceAs (Decidable (e.attributes &&& 0x10 ≠ 0))

/-- A file of the given name: live, that name, not a directory. -/
def IsFile (name : List UInt8) (e : DirEntry) : Prop := Live e ∧ e.name = name ∧ ¬ IsDir e

instance (name : List UInt8) : DecidablePred (IsFile name) := fun e =>
  inferInstanceAs (Decidable (Live e ∧ e.name = name ∧ ¬ IsDir e))

/-- The slot a name denotes: the first file of that name before the first end mark. -/
def Denotes (b : Bpb) (d : Disk) (name : List UInt8) (k : ℕ) : Prop :=
  k < slots b ∧ IsFile name (slot b d k) ∧
    ∀ j < k, (slot b d j).mark ≠ 0 ∧ ¬ IsFile name (slot b d j)

/-! ## The scans that read -/

theorem findSome?_congr {α β : Type} {f g : α → Option β} {ks : List α}
    (h : ∀ k ∈ ks, f k = g k) : ks.findSome? f = ks.findSome? g := by
  induction ks with
  | nil => rfl
  | cons k ks ih =>
      have htail := ih (fun j hj => h j (by simp [hj]))
      simp only [List.findSome?_cons, h k (by simp), htail]

theorem scanRoot_eq {β : Type} (b : Bpb) (d : Disk) (body : Sector → ℕ → ℕ → Option β) :
    scanRoot b d body =
      (List.range (slots b)).findSome? fun k =>
        body (d (b.rootDirSector + k / 16)) (k / 16) (k % 16) := by
  simp only [scanRoot, ataReadSector, slots]
  induction b.rootDirSize with
  | zero => rfl
  | succ n ih =>
      have hmap : ∀ i ∈ List.range 16, (16 * n + i) / 16 = n ∧ (16 * n + i) % 16 = i := by
        intro i hi
        have := List.mem_range.mp hi
        omega
      have hsucc : List.range (n + 1) = List.range n ++ [n] := List.range_succ
      rw [hsucc, List.findSome?_append, ih, Nat.mul_succ, List.range_add,
        List.findSome?_append, List.findSome?_map, List.findSome?_singleton]
      congr 1
      apply findSome?_congr
      intro i hi
      simp only [Function.comp_apply, hmap i hi]

/-- The slot that the common scan of `fat16_get_file_size`, `fat16_read_file` and
`fat16_delete_file` stops at. -/
def lookupIn (entry : ℕ → DirEntry) (name : List UInt8) : List ℕ → Option ℕ
  | [] => none
  | k :: ks =>
      if (entry k).mark = 0 then none
      else if IsFile name (entry k) then some k
      else lookupIn entry name ks

def lookup (b : Bpb) (d : Disk) (name : List UInt8) : Option ℕ :=
  lookupIn (slot b d) name (List.range (slots b))

theorem findSome?_eq_lookupIn {β : Type} (entry : ℕ → DirEntry) (name : List UInt8)
    (z : β) (f : ℕ → β) (ks : List ℕ) :
    (ks.findSome? fun k =>
      if (entry k).mark = 0 then some z
      else if (entry k).mark = 0xE5 then none
      else if (entry k).name = name ∧ (entry k).attributes &&& 0x10 = 0 then some (f k)
      else none).getD z = (lookupIn entry name ks).elim z f := by
  induction ks with
  | nil => rfl
  | cons k ks ih =>
      rw [List.findSome?_cons]
      simp only [lookupIn]
      by_cases h₀ : (entry k).mark = 0
      · simp [h₀]
      · by_cases hE : (entry k).mark = 0xE5
        · have hf : ¬ IsFile name (entry k) := fun hf => hf.1.2 hE
          simp [hE, hf, ih]
        · by_cases hm : (entry k).name = name ∧ (entry k).attributes &&& 0x10 = 0
          · have hf : IsFile name (entry k) := ⟨⟨h₀, hE⟩, hm.1, by simp [IsDir, hm.2]⟩
            simp [h₀, hE, hm, hf]
          · have hf : ¬ IsFile name (entry k) := by
              rintro ⟨_, hname, hdir⟩
              exact hm ⟨hname, by simpa [IsDir] using hdir⟩
            simp only [h₀, hE, hm, hf, if_false]
            exact ih

theorem fat16GetFileSize_eq (b : Bpb) (d : Disk) (filename : List UInt8) :
    fat16GetFileSize b d filename =
      (lookup b d (formatFatName filename)).elim 0 fun k => (slot b d k).fileSize := by
  simp only [fat16GetFileSize, scanRoot_eq]
  exact findSome?_eq_lookupIn (slot b d) _ _ _ _

theorem le32_lt (s : Sector) (i : ℕ) : s.le32 i < 2 ^ 32 := by
  have hbyte : ∀ k, (s.byte k).toNat < 256 := fun k => (s.byte k).toBitVec.isLt
  have h₀ := hbyte i
  have h₁ := hbyte (i + 1)
  have h₂ := hbyte (i + 2)
  have h₃ := hbyte (i + 2 + 1)
  rw [Sector.le32, Sector.le16, Sector.le16]
  omega

theorem fat16GetFileSize_lt (b : Bpb) (d : Disk) (filename : List UInt8) :
    fat16GetFileSize b d filename < 2 ^ 32 := by
  rw [fat16GetFileSize_eq]
  cases lookup b d (formatFatName filename) with
  | none => exact Nat.two_pow_pos 32
  | some k => exact le32_lt _ _

theorem fat16ReadFile_eq (b : Bpb) (d : Disk) (filename : List UInt8) :
    fat16ReadFile b d filename =
      (lookup b d (formatFatName filename)).elim (some (0, [])) fun k =>
        (readChain b d (slot b d k).firstCluster (slot b d k).fileSize).map fun stores =>
          (toInt32 (slot b d k).fileSize, stores) := by
  simp only [fat16ReadFile, scanRoot_eq]
  exact findSome?_eq_lookupIn (slot b d) _ _ _ _

/-- The disk after the entry in slot `k` is deleted. -/
def deleteSlot (b : Bpb) (d : Disk) (k : ℕ) : Disk :=
  ataWriteSector (freeChain b d (slot b d k).firstCluster) (b.rootDirSector + k / 16)
    ((d (b.rootDirSector + k / 16)).setByte (32 * (k % 16)) 0xE5)

theorem fat16DeleteFile_eq (b : Bpb) (d : Disk) (filename : List UInt8) :
    fat16DeleteFile b d filename =
      (lookup b d (formatFatName filename)).elim (0, d) fun k => (1, deleteSlot b d k) := by
  simp only [fat16DeleteFile, scanRoot_eq]
  exact findSome?_eq_lookupIn (slot b d) _ _ _ _

theorem lookupIn_eq_some_iff (entry : ℕ → DirEntry) (name : List UInt8) (a n k : ℕ) :
    lookupIn entry name (List.range' a n) = some k ↔
      (a ≤ k ∧ k < a + n) ∧ IsFile name (entry k) ∧
        ∀ j, a ≤ j → j < k → (entry j).mark ≠ 0 ∧ ¬ IsFile name (entry j) := by
  induction n generalizing a with
  | zero => simp [lookupIn]
  | succ n ih =>
      rw [List.range'_succ]
      simp only [lookupIn]
      by_cases h₀ : (entry a).mark = 0
      · rw [if_pos h₀]
        constructor
        · intro h
          cases h
        · rintro ⟨⟨hle, _⟩, hk, hj⟩
          rcases Nat.eq_or_lt_of_le hle with rfl | hlt
          · exact (hk.1.1 h₀).elim
          · exact ((hj a le_rfl hlt).1 h₀).elim
      · by_cases hf : IsFile name (entry a)
        · simp only [h₀, hf, if_false, if_true, Option.some.injEq]
          constructor
          · rintro rfl
            exact ⟨⟨le_rfl, by omega⟩, hf, fun j h₁ h₂ => by omega⟩
          · rintro ⟨⟨hle, _⟩, _, hj⟩
            rcases Nat.eq_or_lt_of_le hle with rfl | hlt
            · rfl
            · exact ((hj a le_rfl hlt).2 hf).elim
        · simp only [h₀, hf, if_false, ih]
          constructor
          · rintro ⟨⟨hle, hlt⟩, hk, hj⟩
            refine ⟨⟨by omega, by omega⟩, hk, ?_⟩
            intro j h₁ h₂
            rcases Nat.eq_or_lt_of_le h₁ with rfl | h₁
            · exact ⟨h₀, hf⟩
            · exact hj j h₁ h₂
          · rintro ⟨⟨hle, hlt⟩, hk, hj⟩
            have hne : a ≠ k := by
              rintro rfl
              exact hf hk
            exact ⟨⟨by omega, by omega⟩, hk, fun j h₁ h₂ => hj j (by omega) h₂⟩

theorem lookup_eq_some_iff (b : Bpb) (d : Disk) (name : List UInt8) (k : ℕ) :
    lookup b d name = some k ↔ Denotes b d name k := by
  rw [lookup, List.range_eq_range', lookupIn_eq_some_iff]
  simp [Denotes]

/-! ## The slot search of the writer -/

/-- A live entry of the given name, whatever its attributes. -/
def Matches (name : List UInt8) (e : DirEntry) : Prop := Live e ∧ e.name = name

/-- A slot of the given name that the writer comes to see: no end mark precedes it in
its own sector. -/
def Visible (b : Bpb) (d : Disk) (name : List UInt8) (k : ℕ) : Prop :=
  k < slots b ∧ Matches name (slot b d k) ∧ ∀ j < k, j / 16 = k / 16 → (slot b d j).mark ≠ 0

/-- The slot of an existing entry that the writer takes. -/
def WriteFinds (b : Bpb) (d : Disk) (name : List UInt8) (k : ℕ) : Prop :=
  Visible b d name k ∧ ∀ j < k, ¬ Visible b d name j

/-- The inner loop stops at entry `i` of the sector. -/
def SectorFinds (rootSec : Sector) (name : List UInt8) (i : ℕ) : Prop :=
  i < 16 ∧ Matches name (dirEntryAt rootSec i) ∧
    ∀ j < i, (dirEntryAt rootSec j).mark ≠ 0 ∧ ¬ Matches name (dirEntryAt rootSec j)

theorem searchSlots_existing_iff (rootSec : Sector) (name : List UInt8)
    (sec a n : ℕ) (t : Option (ℕ × ℕ)) (sec' i : ℕ) :
    searchSlots rootSec name sec (List.range' a n) t = .existing sec' i ↔
      sec' = sec ∧ (a ≤ i ∧ i < a + n) ∧ Matches name (dirEntryAt rootSec i) ∧
        ∀ j, a ≤ j → j < i →
          (dirEntryAt rootSec j).mark ≠ 0 ∧ ¬ Matches name (dirEntryAt rootSec j) := by
  induction n generalizing a t with
  | zero => simp [searchSlots]
  | succ n ih =>
      -- the scan passes over entry `a` exactly when it neither matches nor ends the sector
      have hpass : (dirEntryAt rootSec a).mark ≠ 0 → ¬ Matches name (dirEntryAt rootSec a) →
          ∀ t', searchSlots rootSec name sec (List.range' (a + 1) n) t' = .existing sec' i ↔
            sec' = sec ∧ (a ≤ i ∧ i < a + (n + 1)) ∧ Matches name (dirEntryAt rootSec i) ∧
              ∀ j, a ≤ j → j < i →
                (dirEntryAt rootSec j).mark ≠ 0 ∧ ¬ Matches name (dirEntryAt rootSec j) := by
        intro h₀ hm t'
        rw [ih]
        refine and_congr_right fun _ => ?_
        constructor
        · rintro ⟨⟨hle, hlt⟩, hi, hj⟩
          refine ⟨⟨by omega, by omega⟩, hi, ?_⟩
          intro j h₁ h₂
          rcases Nat.eq_or_lt_of_le h₁ with rfl | h₁
          · exact ⟨h₀, hm⟩
          · exact hj j h₁ h₂
        · rintro ⟨⟨hle, hlt⟩, hi, hj⟩
          have hne : a ≠ i := by
            rintro rfl
            exact hm hi
          exact ⟨⟨by omega, by omega⟩, hi, fun j h₁ h₂ => hj j (by omega) h₂⟩
      rw [List.range'_succ]
      simp only [searchSlots]
      by_cases h₀ : (dirEntryAt rootSec a).mark = 0
      · simp only [h₀, true_or, if_true, reduceCtorEq, false_iff]
        rintro ⟨_, ⟨hle, _⟩, hi, hj⟩
        rcases Nat.eq_or_lt_of_le hle with rfl | hlt
        · exact hi.1.1 h₀
        · exact (hj a le_rfl hlt).1 h₀
      · by_cases hE : (dirEntryAt rootSec a).mark = 0xE5
        · rw [if_pos (.inr hE), if_neg h₀]
          exact hpass h₀ (fun hm => hm.1.2 hE) _
        · by_cases hn : (dirEntryAt rootSec a).name = name
          · have hm : Matches name (dirEntryAt rootSec a) := ⟨⟨h₀, hE⟩, hn⟩
            simp only [h₀, hE, hn, or_self, if_false, if_true, WriteSlot.existing.injEq]
            constructor
            · rintro ⟨rfl, rfl⟩
              exact ⟨rfl, ⟨le_rfl, by omega⟩, hm, fun j h₁ h₂ => by omega⟩
            · rintro ⟨rfl, ⟨hle, _⟩, _, hj⟩
              rcases Nat.eq_or_lt_of_le hle with rfl | hlt
              · exact ⟨rfl, rfl⟩
              · exact ((hj a le_rfl hlt).2 hm).elim
          · simp only [h₀, hE, hn, or_self, if_false]
            exact hpass h₀ (fun hm => hn hm.2) _

theorem searchSectors_existing_iff (b : Bpb) (d : Disk) (name : List UInt8)
    (a n : ℕ) (t : Option (ℕ × ℕ)) (sec i : ℕ) :
    searchSectors b d name (List.range' a n) t = .existing sec i ↔
      (a ≤ sec ∧ sec < a + n) ∧ SectorFinds (d (b.rootDirSector + sec)) name i ∧
        ∀ s, a ≤ s → s < sec → ∀ j, ¬ SectorFinds (d (b.rootDirSector + s)) name j := by
  induction n generalizing a t with
  | zero => simp [searchSectors]
  | succ n ih =>
      rw [List.range'_succ]
      have hin : ∀ sec' i', searchSlots (d (b.rootDirSector + a)) name a (List.range 16) t =
          .existing sec' i' ↔ sec' = a ∧ SectorFinds (d (b.rootDirSector + a)) name i' := by
        intro sec' i'
        rw [List.range_eq_range', searchSlots_existing_iff]
        simp [SectorFinds]
      simp only [searchSectors, ataReadSector]
      cases hs : searchSlots (d (b.rootDirSector + a)) name a (List.range 16) t with
      | existing sec' i' =>
          obtain ⟨rfl, hf⟩ := (hin sec' i').mp hs
          simp only [WriteSlot.existing.injEq]
          constructor
          · rintro ⟨rfl, rfl⟩
            exact ⟨⟨le_rfl, by omega⟩, hf, fun s h₁ h₂ => by omega⟩
          · rintro ⟨⟨hle, _⟩, hi, hj⟩
            rcases Nat.eq_or_lt_of_le hle with rfl | hlt
            · have hi' := (hin sec' i).mpr ⟨rfl, hi⟩
              rw [hs] at hi'
              simpa using hi'
            · exact (hj sec' le_rfl hlt i' hf).elim
      | free t' =>
          have hnone : ∀ j, ¬ SectorFinds (d (b.rootDirSector + a)) name j := by
            intro j hj
            have := (hin a j).mpr ⟨rfl, hj⟩
            rw [hs] at this
            cases this
          simp only [ih]
          constructor
          · rintro ⟨⟨hle, hlt⟩, hi, hj⟩
            refine ⟨⟨by omega, by omega⟩, hi, ?_⟩
            intro s h₁ h₂
            rcases Nat.eq_or_lt_of_le h₁ with rfl | h₁
            · exact hnone
            · exact hj s h₁ h₂
          · rintro ⟨⟨hle, hlt⟩, hi, hj⟩
            have hne : a ≠ sec := by
              rintro rfl
              exact hnone i hi
            exact ⟨⟨by omega, by omega⟩, hi, fun s h₁ h₂ => hj s (by omega) h₂⟩

theorem slot_eq (b : Bpb) (d : Disk) (sec : ℕ) {i : ℕ} (hi : i < 16) :
    slot b d (16 * sec + i) = dirEntryAt (d (b.rootDirSector + sec)) i := by
  have h₁ : (16 * sec + i) / 16 = sec := by omega
  have h₂ : (16 * sec + i) % 16 = i := by omega
  rw [slot, h₁, h₂]

theorem sectorFinds_visible {b : Bpb} {d : Disk} {name : List UInt8} {sec i : ℕ}
    (hsec : sec < b.rootDirSize) (h : SectorFinds (d (b.rootDirSector + sec)) name i) :
    Visible b d name (16 * sec + i) ∧
      ∀ j < 16 * sec + i, 16 * sec ≤ j → ¬ Visible b d name j := by
  obtain ⟨hi, hm, hj⟩ := h
  refine ⟨⟨by unfold slots; omega, by rwa [slot_eq b d sec hi], ?_⟩, ?_⟩
  · intro j hlt hdiv
    have hsplit : j = 16 * sec + j % 16 := by omega
    rw [hsplit, slot_eq b d sec (by omega)]
    exact (hj _ (by omega)).1
  · rintro j hlt hle ⟨_, hmj, _⟩
    have hsplit : j = 16 * sec + j % 16 := by omega
    rw [hsplit, slot_eq b d sec (by omega)] at hmj
    exact (hj _ (by omega)).2 hmj

/-- A sector with a visible slot has a slot the inner loop stops at. -/
theorem exists_sectorFinds {b : Bpb} {d : Disk} {name : List UInt8} {k : ℕ}
    (h : Visible b d name k) :
    ∃ i ≤ k % 16, SectorFinds (d (b.rootDirSector + k / 16)) name i := by
  classical
  obtain ⟨hk, hm, hmark⟩ := h
  have hsplit : k = 16 * (k / 16) + k % 16 := by omega
  have hex : ∃ i, i ≤ k % 16 ∧ Matches name (dirEntryAt (d (b.rootDirSector + k / 16)) i) :=
    ⟨k % 16, le_rfl, hm⟩
  obtain ⟨hle, hmatch⟩ := Nat.find_spec hex
  refine ⟨Nat.find hex, hle, by omega, hmatch, ?_⟩
  intro j hj
  constructor
  · have := hmark (16 * (k / 16) + j) (by omega) (by omega)
    rwa [slot_eq b d _ (by omega)] at this
  · intro hmj
    exact Nat.find_min hex hj ⟨by omega, hmj⟩

/-- The writer overwrites an entry exactly when it is the first visible one. -/
theorem writeSlot_existing_iff (b : Bpb) (d : Disk) (name : List UInt8) (sec i : ℕ) :
    writeSlot b d name = .existing sec i ↔ i < 16 ∧ WriteFinds b d name (16 * sec + i) := by
  rw [writeSlot, List.range_eq_range', searchSectors_existing_iff]
  simp only [Nat.zero_le, true_and, Nat.zero_add, true_implies]
  constructor
  · rintro ⟨hsec, hf, hno⟩
    obtain ⟨hv, hmin⟩ := sectorFinds_visible hsec hf
    refine ⟨hf.1, hv, ?_⟩
    intro j hj hvj
    by_cases hle : 16 * sec ≤ j
    · exact hmin j hj hle hvj
    · obtain ⟨i', _, hf'⟩ := exists_sectorFinds hvj
      exact hno (j / 16) (by omega) i' hf'
  · rintro ⟨hi, hv, hmin⟩
    have hdiv : (16 * sec + i) / 16 = sec := by omega
    have hmod : (16 * sec + i) % 16 = i := by omega
    have hsec : sec < b.rootDirSize := by
      have := hv.1
      unfold slots at this
      omega
    obtain ⟨i', hle, hf'⟩ := exists_sectorFinds hv
    rw [hdiv] at hf'
    rw [hmod] at hle
    have hii : i' = i := by
      by_contra hne
      exact hmin (16 * sec + i') (by omega) (sectorFinds_visible hsec hf').1
    refine ⟨hsec, hii ▸ hf', ?_⟩
    intro s hs j hf
    have hslt := hf.1
    exact hmin (16 * s + j) (by omega) (sectorFinds_visible (by omega) hf).1

/-! ## Free slots -/

theorem searchSlots_free (rootSec : Sector) (name : List UInt8) (sec : ℕ) (is : List ℕ)
    (t t' : Option (ℕ × ℕ)) (h : searchSlots rootSec name sec is t = .free t') :
    t' = t.or (is.findSome? fun i =>
      if Live (dirEntryAt rootSec i) then none else some (sec, i)) := by
  induction is generalizing t with
  | nil => simpa [searchSlots, eq_comm] using h
  | cons i is ih =>
      simp only [searchSlots] at h
      rw [List.findSome?_cons]
      by_cases hl : Live (dirEntryAt rootSec i)
      · have hfree : ¬ ((dirEntryAt rootSec i).mark = 0 ∨ (dirEntryAt rootSec i).mark = 0xE5) := by
          simpa [Live] using hl
        rw [if_neg hfree] at h
        simp only [hl, if_true]
        split at h
        · cases h
        · exact ih t h
      · have hfree : (dirEntryAt rootSec i).mark = 0 ∨ (dirEntryAt rootSec i).mark = 0xE5 := by
          simpa [Live, or_iff_not_imp_left] using hl
        rw [if_pos hfree] at h
        simp only [hl, if_false]
        split at h
        · simpa [eq_comm] using h
        · rw [ih _ h, Option.or_assoc, Option.some_or]

theorem searchSectors_free (b : Bpb) (d : Disk) (name : List UInt8) (secs : List ℕ)
    (t t' : Option (ℕ × ℕ)) (h : searchSectors b d name secs t = .free t') :
    t' = t.or (secs.findSome? fun sec => (List.range 16).findSome? fun i =>
      if Live (dirEntryAt (d (b.rootDirSector + sec)) i) then none else some (sec, i)) := by
  induction secs generalizing t with
  | nil => simpa [searchSectors, eq_comm] using h
  | cons sec secs ih =>
      simp only [searchSectors, ataReadSector] at h
      rw [List.findSome?_cons]
      cases hs : searchSlots (d (b.rootDirSector + sec)) name sec (List.range 16) t with
      | existing sec' i => simp [hs] at h
      | free t'' =>
          simp only [hs] at h
          have h₁ := searchSlots_free _ _ _ _ _ _ hs
          have h₂ := ih t'' h
          rw [h₂, h₁, Option.or_assoc]
          cases (List.range 16).findSome? fun i =>
            if Live (dirEntryAt (d (b.rootDirSector + sec)) i) then none else some (sec, i) with
          | none => simp
          | some p => simp

/-- Without an entry to overwrite the writer takes the first slot that is not live. -/
theorem writeSlot_free {b : Bpb} {d : Disk} {name : List UInt8} {t : Option (ℕ × ℕ)}
    (h : writeSlot b d name = .free t) :
    t = (List.range (slots b)).findSome? fun k =>
      if Live (slot b d k) then none else some (k / 16, k % 16) := by
  have hfree := searchSectors_free b d name _ _ _ h
  rw [Option.none_or] at hfree
  rw [hfree]
  exact scanRoot_eq b d fun rootSec sec i =>
    if Live (dirEntryAt rootSec i) then none else some (sec, i)

theorem findSome?_range_eq_some {β : Type} {f : ℕ → Option β} {n : ℕ} {y : β}
    (h : (List.range n).findSome? f = some y) :
    ∃ k < n, f k = some y ∧ ∀ j < k, f j = none := by
  induction n with
  | zero => simp at h
  | succ n ih =>
      rw [List.range_succ, List.findSome?_append] at h
      cases hn : (List.range n).findSome? f with
      | some z =>
          rw [hn, Option.some_or] at h
          obtain ⟨k, hk, hf, hj⟩ := ih (hn.trans h)
          exact ⟨k, by omega, hf, hj⟩
      | none =>
          rw [hn, Option.none_or, List.findSome?_singleton] at h
          refine ⟨n, by omega, h, ?_⟩
          intro j hj
          exact List.findSome?_eq_none_iff.mp hn j (List.mem_range.mpr hj)

theorem writeSlot_free_some {b : Bpb} {d : Disk} {name : List UInt8} {sec i : ℕ}
    (h : writeSlot b d name = .free (some (sec, i))) :
    ∃ k < slots b, sec = k / 16 ∧ i = k % 16 ∧ ¬ Live (slot b d k) ∧
      ∀ j < k, Live (slot b d j) := by
  obtain ⟨k, hk, hf, hj⟩ := findSome?_range_eq_some (writeSlot_free h).symm
  by_cases hl : Live (slot b d k)
  · simp [hl] at hf
  · simp only [hl, if_false, Option.some.injEq, Prod.mk.injEq] at hf
    refine ⟨k, hk, hf.1.symm, hf.2.symm, hl, ?_⟩
    intro j hlt
    by_contra hlj
    simpa [hlj] using hj j hlt

theorem writeSlot_free_none {b : Bpb} {d : Disk} {name : List UInt8}
    (h : writeSlot b d name = .free none) : ∀ k < slots b, Live (slot b d k) := by
  intro k hk
  have hnone := List.findSome?_eq_none_iff.mp (writeSlot_free h).symm k (List.mem_range.mpr hk)
  by_contra hl
  simp [hl] at hnone

theorem writeSlot_free_not_visible {b : Bpb} {d : Disk} {name : List UInt8}
    {t : Option (ℕ × ℕ)} (h : writeSlot b d name = .free t) (k : ℕ) :
    ¬ Visible b d name k := by
  classical
  intro hv
  have hex : ∃ k, Visible b d name k := ⟨k, hv⟩
  have hfinds : WriteFinds b d name (Nat.find hex) :=
    ⟨Nat.find_spec hex, fun j hj => Nat.find_min hex hj⟩
  have hsplit : Nat.find hex = 16 * (Nat.find hex / 16) + Nat.find hex % 16 := by omega
  rw [hsplit] at hfinds
  have := (writeSlot_existing_iff b d name _ _).mpr ⟨Nat.mod_lt _ (by decide), hfinds⟩
  rw [h] at this
  cases this

end LispDos.Fat16
