import LispDos.Verification.Fat16.Consistency

/-! # How far a damaged chain reaches

The loop that frees a chain follows every link up to the last cluster number, whether or not
the table has an entry of that number. What it clears behind the table belongs to the second
table, the root directory or the data. -/

namespace LispDos.Fat16

open Foundation

variable {b : Bpb} {d r : Disk} {c k x : ℕ} {filename : List UInt8}

/-! ## The entries that are cleared -/

/-- The loop that frees the chain from `c` comes to the cluster `x`. -/
abbrev Reaches (b : Bpb) (d : Disk) (c x : ℕ) : Prop :=
  Visits (fat16GetFatEntry b d) IsCluster c x

/-- The entry is not one that a write to the second table changes. -/
def Readable (b : Bpb) (x : ℕ) : Prop := b.tables ≤ 1 ∨ x < 256 * b.tableSize

/-- Clearing an entry keeps the other bytes of the sectors that are read as entries. -/
theorem byte_set_of_ne {q i v : ℕ} (hi : i < 512) (hread : Readable b (256 * q + i / 2))
    (hne : 256 * q + i / 2 ≠ c) :
    (fat16SetFatEntry b d c v (b.reserved + q)).byte i = (d (b.reserved + q)).byte i := by
  rw [fat16SetFatEntry_apply]
  by_cases hq : q = c * 2 / 512
  · rw [if_pos (.inl (by omega)), Sector.byte_setLe16 _ (by omega), if_neg (by omega),
      if_neg (by omega), hq]
  · unfold Readable at hread
    rw [if_neg (by omega)]

theorem fatEntry_congr_bytes {d' : Disk}
    (h : ∀ i < 512, 256 * (x * 2 / 512) + i / 2 = x →
      (d' (b.reserved + x * 2 / 512)).byte i = (d (b.reserved + x * 2 / 512)).byte i) :
    fat16GetFatEntry b d' x = fat16GetFatEntry b d x :=
  Sector.le16_congr (h _ (by omega) (by omega)) (h _ (by omega) (by omega))

/-- What the loop leaves on the disk. -/
structure Released (b : Bpb) (d : Disk) (c : ℕ) (r : Disk) : Prop where
  cleared : ∀ x, Reaches b d c x → fat16GetFatEntry b r x = 0
  kept : ∀ q, ∀ i < 512, Readable b (256 * q + i / 2) → ¬ Reaches b d c (256 * q + i / 2) →
    (r (b.reserved + q)).byte i = (d (b.reserved + q)).byte i
  mirrored : 1 < b.tables → ∀ x, Reaches b d c x →
    r (b.reserved + x * 2 / 512 + b.tableSize) = r (b.reserved + x * 2 / 512)
  untouched : ∀ s, (∀ x, Reaches b d c x → s ≠ b.reserved + x * 2 / 512 ∧
    (1 < b.tables → s ≠ b.reserved + x * 2 / 512 + b.tableSize)) → r s = d s

/-- The clusters that the loop comes to after its first round. -/
theorem reaches_iff (hc : IsCluster c) (hread : ∀ x, Reaches b d c x → Readable b x) :
    Reaches b d c x ↔
      x = c ∨ Reaches b (fat16SetFatEntry b d c 0) (fat16GetFatEntry b d c) x := by
  refine Visits.cut_iff hc ?_ ?_
  · intro y hy hne
    rw [fatEntry_set_of_readable (hread y hy) (by decide), if_neg hne]
  · rw [fat16GetFatEntry_set_self b d c (by decide)]
    decide

/-- One more round before the loop. -/
theorem Released.step (hc : IsCluster c) (hread : ∀ x, Reaches b d c x → Readable b x)
    (h : Released b (fat16SetFatEntry b d c 0) (fat16GetFatEntry b d c) r) :
    Released b d c r := by
  have hiff := fun x => reaches_iff (x := x) hc hread
  have hcread := hread c (.here hc)
  constructor
  · intro x hx
    by_cases hlater : Reaches b (fat16SetFatEntry b d c 0) (fat16GetFatEntry b d c) x
    · exact h.cleared x hlater
    · obtain rfl := ((hiff x).mp hx).resolve_right hlater
      have hsame : fat16GetFatEntry b r x = fat16GetFatEntry b (fat16SetFatEntry b d x 0) x := by
        apply fatEntry_congr_bytes
        intro i hi hix
        apply h.kept _ i hi
        · rwa [hix]
        · rwa [hix]
      rw [hsame, fat16GetFatEntry_set_self b d x (by decide)]
  · intro q i hi hq hnot
    rw [hiff, not_or] at hnot
    rw [h.kept q i hi hq hnot.2, byte_set_of_ne hi hq hnot.1]
  · intro ht x hx
    have hclt : c < 256 * b.tableSize := hcread.resolve_left (by omega)
    by_cases hlater : ∃ y, Reaches b (fat16SetFatEntry b d c 0) (fat16GetFatEntry b d c) y ∧
        y * 2 / 512 = x * 2 / 512
    · obtain ⟨y, hy, hsec⟩ := hlater
      rw [← hsec]
      exact h.mirrored ht y hy
    · have hlast : ∀ y, Reaches b (fat16SetFatEntry b d c 0) (fat16GetFatEntry b d c) y →
          y < 256 * b.tableSize ∧ y * 2 / 512 ≠ x * 2 / 512 := by
        intro y hy
        refine ⟨(hread y ((hiff y).mpr (.inr hy))).resolve_left (by omega), ?_⟩
        exact fun hsec => hlater ⟨y, hy, hsec⟩
      have hxc : x = c := ((hiff x).mp hx).resolve_right fun hy => hlater ⟨x, hy, rfl⟩
      subst hxc
      rw [h.untouched _ fun y hy => ⟨by have := hlast y hy; omega, by have := hlast y hy; omega⟩,
        h.untouched _ fun y hy => ⟨by have := hlast y hy; omega, by have := hlast y hy; omega⟩,
        fat16SetFatEntry_apply, fat16SetFatEntry_apply, if_pos (.inr ⟨ht, rfl⟩),
        if_pos (.inl rfl)]
  · intro s hs
    rw [h.untouched s fun y hy => hs y ((hiff y).mpr (.inr hy)), fat16SetFatEntry_apply,
      if_neg]
    have hfirst := hs c (.here hc)
    intro hwritten
    rcases hwritten with heq | ⟨ht, heq⟩
    · exact hfirst.1 heq
    · exact hfirst.2 ht heq

/-- The loop clears the entries it comes to and no others, as long as these are not read from
the second table. -/
theorem released_freeChain (b : Bpb) (d : Disk) (c : ℕ)
    (hread : ∀ x, Reaches b d c x → Readable b x) : Released b d c (freeChain b d c) := by
  induction d, c using freeChain.induct b with
  | case1 d c hc ih =>
      rw [freeChain, if_pos hc]
      refine .step hc hread (ih ?_)
      intro x hx
      exact hread x ((reaches_iff hc hread).mpr (.inr hx))
  | case2 d c hc =>
      have hno : ∀ x, ¬ Reaches b d c x := by
        intro x hx
        cases hx with
        | here hgo => exact hc hgo
        | there hgo => exact hc hgo
      rw [freeChain, if_neg hc]
      exact ⟨fun x hx => (hno x hx).elim, fun _ _ _ _ _ => rfl, fun _ x hx => (hno x hx).elim,
        fun _ _ => rfl⟩

/-! ## What a deletion changes -/

/-- The entry of a data cluster. -/
def DataEntry (b : Bpb) (x : ℕ) : Prop := 2 ≤ x ∧ x ≤ clusters b + 1

/-- The first name byte of the entry that is deleted. -/
def DeletedMark (b : Bpb) (d : Disk) (filename : List UInt8) (s i : ℕ) : Prop :=
  ∃ k, lookup b d (formatFatName filename) = some k ∧ s = b.rootDirSector + k / 16 ∧
    i = 32 * (k % 16)

/-- A deletion changes entries of data clusters and the mark of the deleted entry only. -/
structure DeleteConfined (b : Bpb) (d : Disk) (filename : List UInt8) : Prop where
  reserved : ∀ s < b.reserved, (fat16DeleteFile b d filename).2 s = d s
  tables : ∀ t < b.tables, ∀ q < b.tableSize, ∀ i < 512, ¬ DataEntry b (256 * q + i / 2) →
    ((fat16DeleteFile b d filename).2 (b.reserved + t * b.tableSize + q)).byte i =
      (d (b.reserved + t * b.tableSize + q)).byte i
  root : ∀ s, b.rootDirSector ≤ s → s < b.dataSector → ∀ i < 512, ¬ DeletedMark b d filename s i →
    ((fat16DeleteFile b d filename).2 s).byte i = (d s).byte i
  data : ∀ s, b.dataSector ≤ s → (fat16DeleteFile b d filename).2 s = d s

/-- Freeing the cluster `x` of the entry in slot `k` does no harm: it is a data cluster, or its
entry is clear already, or the root sector that is written last lies there; and the sector of a
second table is the same as that of the first apart from the entries of data clusters. -/
structure SafeLink (b : Bpb) (d : Disk) (k x : ℕ) : Prop where
  entry : x ≤ clusters b + 1 ∨ fat16GetFatEntry b d x = 0 ∨
    (b.tables = 1 ∧ b.reserved + x * 2 / 512 = b.rootDirSector + k / 16)
  inTable : b.tables = 2 → x < 256 * b.tableSize
  copies : b.tables = 2 → ∀ i < 512, ¬ DataEntry b (256 * (x * 2 / 512) + i / 2) →
    (d (b.reserved + x * 2 / 512 + b.tableSize)).byte i = (d (b.reserved + x * 2 / 512)).byte i

/-- All links of the chain of the entry in slot `k` are safe. -/
def SafeChain (b : Bpb) (d : Disk) (k : ℕ) : Prop :=
  ∀ x, Reaches b d (slot b d k).firstCluster x → SafeLink b d k x

/-- With two tables the chain of the entry in slot `k` stays in the first. -/
def StaysInTable (b : Bpb) (d : Disk) (k : ℕ) : Prop :=
  b.tables = 2 → ∀ x, Reaches b d (slot b d k).firstCluster x → x < 256 * b.tableSize

theorem SafeChain.staysInTable (h : SafeChain b d k) : StaysInTable b d k :=
  fun ht x hx => (h x hx).inTable ht

theorem StaysInTable.readable (h : StaysInTable b d k) (hg : Geometry b) (x : ℕ)
    (hx : Reaches b d (slot b d k).firstCluster x) : Readable b x := by
  rcases hg.tables with ht | ht
  · exact .inl ht.le
  · exact .inr (h ht x hx)

theorem deleteSlot_apply_of_ne {s : ℕ} (hs : s ≠ b.rootDirSector + k / 16) :
    deleteSlot b d k s = freeChain b d (slot b d k).firstCluster s :=
  if_neg hs

/-- The bytes of a sector that is read as entries, if no safe link and no other changes them. -/
theorem SafeChain.byte_eq (h : SafeChain b d k) (hg : Geometry b) {q i : ℕ} (hi : i < 512)
    (hread : Readable b (256 * q + i / 2)) (hnot : ¬ DataEntry b (256 * q + i / 2))
    (hs : b.reserved + q ≠ b.rootDirSector + k / 16) :
    (freeChain b d (slot b d k).firstCluster (b.reserved + q)).byte i =
      (d (b.reserved + q)).byte i := by
  have hrel := released_freeChain b d (slot b d k).firstCluster (h.staysInTable.readable hg)
  by_cases hx : Reaches b d (slot b d k).firstCluster (256 * q + i / 2)
  · have hsec : (256 * q + i / 2) * 2 / 512 = q := by omega
    have hoff : (256 * q + i / 2) * 2 % 512 = 2 * (i / 2) := by omega
    rcases (h _ hx).entry with hle | hzero | ⟨_, hroot⟩
    · exact (hnot ⟨hx.go_target.1, hle⟩).elim
    · have hclear := hrel.cleared _ hx
      simp only [fat16GetFatEntry, ataReadSector, hsec, hoff, Sector.le16] at hzero hclear
      apply UInt8.toNat_inj.mp
      rcases Nat.mod_two_eq_zero_or_one i with hpar | hpar
      · have : i = 2 * (i / 2) := by omega
        rw [this]
        omega
      · have : i = 2 * (i / 2) + 1 := by omega
        rw [this]
        omega
    · rw [hsec] at hroot
      exact (hs hroot).elim
  · exact hrel.kept q i hi hread hx

/-- Outside the tables and the sector that is written last nothing changes. -/
theorem SafeChain.outside_eq (h : SafeChain b d k) (hg : Geometry b) {s : ℕ}
    (hout : s < b.reserved ∨ b.rootDirSector ≤ s) (hs : s ≠ b.rootDirSector + k / 16) :
    deleteSlot b d k s = d s := by
  have hrel := released_freeChain b d (slot b d k).firstCluster (h.staysInTable.readable hg)
  have hentries := hg.entries
  rw [deleteSlot_apply_of_ne hs]
  rcases hg.tables with ht | ht
  · have hroot : b.rootDirSector = b.reserved + b.tableSize := by
      rw [Bpb.rootDirSector, ht, Nat.one_mul]
    by_cases hlow : s < b.reserved
    · exact hrel.untouched s fun x _ => ⟨by omega, by omega⟩
    · obtain ⟨q, rfl⟩ := Nat.exists_eq_add_of_le (Nat.le_of_not_lt hlow)
      apply Sector.ext
      intro i hi
      exact h.byte_eq hg hi (.inl ht.le) (fun hdata => by have := hdata.2; omega) hs
  · have hroot : b.rootDirSector = b.reserved + 2 * b.tableSize := by
      rw [Bpb.rootDirSector, ht]
    refine hrel.untouched s fun x hx => ?_
    have hlt := (h x hx).inTable ht
    exact ⟨by omega, by omega⟩

/-- In the tables only the entries of data clusters change. -/
theorem SafeChain.tables_eq (h : SafeChain b d k) (hg : Geometry b) {t q i : ℕ}
    (ht : t < b.tables) (hq : q < b.tableSize) (hi : i < 512)
    (hnot : ¬ DataEntry b (256 * q + i / 2)) :
    (deleteSlot b d k (b.reserved + t * b.tableSize + q)).byte i =
      (d (b.reserved + t * b.tableSize + q)).byte i := by
  have hrel := released_freeChain b d (slot b d k).firstCluster (h.staysInTable.readable hg)
  obtain ⟨hone, htwo⟩ := hg.tables_mul
  have hroot : b.rootDirSector = b.reserved + b.tables * b.tableSize := rfl
  have hfirst : (freeChain b d (slot b d k).firstCluster (b.reserved + q)).byte i =
      (d (b.reserved + q)).byte i :=
    h.byte_eq hg hi (.inr (by omega)) hnot (by omega)
  have hcase : t = 0 ∨ (t = 1 ∧ b.tables = 2) := by
    have := hg.tables
    omega
  rcases hcase with rfl | ⟨rfl, htables⟩
  · rw [Nat.zero_mul, Nat.add_zero, deleteSlot_apply_of_ne (by omega), hfirst]
  · have hsize := htwo (by omega)
    have hsec : b.reserved + 1 * b.tableSize + q = b.reserved + q + b.tableSize := by omega
    rw [hsec, deleteSlot_apply_of_ne (by omega)]
    by_cases hvisited : ∃ x, Reaches b d (slot b d k).firstCluster x ∧ x * 2 / 512 = q
    · obtain ⟨x, hx, rfl⟩ := hvisited
      rw [hrel.mirrored (by omega) x hx, hfirst, (h x hx).copies htables i hi hnot]
    · refine congrArg (fun s => Sector.byte s i) (hrel.untouched _ fun x hx => ?_)
      have hlt := (h x hx).inTable htables
      have hne : x * 2 / 512 ≠ q := fun hsame => hvisited ⟨x, hx, hsame⟩
      exact ⟨by omega, by omega⟩

theorem fat16DeleteFile_of_lookup (hlook : lookup b d (formatFatName filename) = some k) :
    (fat16DeleteFile b d filename).2 = deleteSlot b d k := by
  rw [fat16DeleteFile_eq, hlook, Option.elim_some]

theorem SafeChain.confined (h : SafeChain b d k) (hg : Geometry b)
    (hlook : lookup b d (formatFatName filename) = some k) : DeleteConfined b d filename := by
  have hdel := fat16DeleteFile_of_lookup hlook
  have hk : k / 16 < b.rootDirSize := by
    have := ((lookup_eq_some_iff b d _ k).mp hlook).1
    unfold slots at this
    omega
  have hdata : b.dataSector = b.rootDirSector + b.rootDirSize := rfl
  have hroot : b.rootDirSector = b.reserved + b.tables * b.tableSize := rfl
  constructor
  · intro s hs
    rw [hdel, h.outside_eq hg (.inl hs) (by omega)]
  · intro t ht q hq i hi hnot
    rw [hdel, h.tables_eq hg ht hq hi hnot]
  · intro s hlo hhi i hi hnot
    rw [hdel]
    by_cases hs : s = b.rootDirSector + k / 16
    · have hne : i ≠ 32 * (k % 16) := fun hi => hnot ⟨k, hlook, hs, hi⟩
      rw [deleteSlot, ataWriteSector, if_pos hs, Sector.byte_setByte _ (by omega), if_neg hne, hs]
    · rw [h.outside_eq hg (.inr hlo) hs]
  · intro s hs
    rw [hdel, h.outside_eq hg (.inr (by omega)) (by omega)]

/-! ## What a confined deletion says about the chain -/

section Confined

variable (hg : Geometry b) (hlook : lookup b d (formatFatName filename) = some k)
  (hstays : StaysInTable b d k) (h : DeleteConfined b d filename)
include hg hlook hstays h

/-- The entry of a cluster behind the data clusters is kept, unless its sector is written
last. -/
theorem DeleteConfined.entry_kept (hx : Reaches b d (slot b d k).firstCluster x)
    (hgt : ¬ x ≤ clusters b + 1) (hs : b.reserved + x * 2 / 512 ≠ b.rootDirSector + k / 16) :
    fat16GetFatEntry b (deleteSlot b d k) x = fat16GetFatEntry b d x := by
  have hdel := fat16DeleteFile_of_lookup hlook
  have hroot : b.rootDirSector = b.reserved + b.tables * b.tableSize := rfl
  have hcount := hg.tables
  apply fatEntry_congr_bytes
  intro i hi hix
  rw [← hdel]
  by_cases hq : x * 2 / 512 < b.tableSize
  · have htable := h.tables 0 (by omega) _ hq i hi (by rw [hix]; exact fun hd => hgt hd.2)
    rwa [Nat.zero_mul, Nat.add_zero] at htable
  · have ht : b.tables = 1 := by
      rcases hg.tables with ht | ht
      · exact ht
      · have := hstays ht x hx
        omega
    rw [ht, Nat.one_mul] at hroot
    by_cases hin : b.reserved + x * 2 / 512 < b.dataSector
    · refine h.root _ (by omega) hin i hi ?_
      intro hmark
      rcases hmark with ⟨k', hlook', hsec, _⟩
      obtain rfl := Option.some_inj.mp (hlook.symm.trans hlook')
      exact hs hsec
    · rw [h.data _ (Nat.le_of_not_lt hin)]

/-- A kept entry was clear before, because the loop has cleared it. -/
theorem DeleteConfined.entry_clear (hx : Reaches b d (slot b d k).firstCluster x)
    (hgt : ¬ x ≤ clusters b + 1) (hs : b.reserved + x * 2 / 512 ≠ b.rootDirSector + k / 16) :
    fat16GetFatEntry b d x = 0 := by
  have hrel := released_freeChain b d (slot b d k).firstCluster (hstays.readable hg)
  rw [← h.entry_kept hg hlook hstays hx hgt hs, ← hrel.cleared x hx]
  simp only [fat16GetFatEntry, ataReadSector, deleteSlot_apply_of_ne hs]

/-- The sector of the second table has become that of the first. -/
theorem DeleteConfined.copies (ht : b.tables = 2)
    (hx : Reaches b d (slot b d k).firstCluster x) {i : ℕ} (hi : i < 512)
    (hnot : ¬ DataEntry b (256 * (x * 2 / 512) + i / 2)) :
    (d (b.reserved + x * 2 / 512 + b.tableSize)).byte i = (d (b.reserved + x * 2 / 512)).byte i := by
  have hdel := fat16DeleteFile_of_lookup hlook
  have hrel := released_freeChain b d (slot b d k).firstCluster (hstays.readable hg)
  have hroot : b.rootDirSector = b.reserved + b.tables * b.tableSize := rfl
  have hlt := hstays ht x hx
  have hsize := hg.tables_mul.2 (by omega)
  have hfirst := h.tables 0 (by omega) (x * 2 / 512) (by omega) i hi hnot
  have hsecond := h.tables 1 (by omega) (x * 2 / 512) (by omega) i hi hnot
  have hsec : b.reserved + 1 * b.tableSize + x * 2 / 512 =
      b.reserved + x * 2 / 512 + b.tableSize := by omega
  rw [hdel, Nat.zero_mul, Nat.add_zero, deleteSlot_apply_of_ne (by omega)] at hfirst
  rw [hdel, hsec, deleteSlot_apply_of_ne (by omega), hrel.mirrored (by omega) x hx] at hsecond
  rw [← hsecond, hfirst]

/-- A deletion that changes nothing else comes to safe links only. -/
theorem DeleteConfined.safeChain : SafeChain b d k := by
  intro x hx
  refine ⟨?_, fun ht => hstays ht x hx, fun ht i hi hnot => h.copies hg hlook hstays ht hx hi hnot⟩
  by_cases hle : x ≤ clusters b + 1
  · exact .inl hle
  by_cases hs : b.reserved + x * 2 / 512 = b.rootDirSector + k / 16
  · have hroot : b.rootDirSector = b.reserved + b.tables * b.tableSize := rfl
    rcases hg.tables with ht | ht
    · exact .inr (.inr ⟨ht, hs⟩)
    · have := hstays ht x hx
      rw [hroot, ht] at hs
      omega
  · exact .inr (.inl (h.entry_clear hg hlook hstays hx hle hs))

end Confined

theorem deleteConfined_of_not_found (h : lookup b d (formatFatName filename) = none) :
    DeleteConfined b d filename := by
  have hsame : (fat16DeleteFile b d filename).2 = d := by
    rw [fat16DeleteFile_eq, h, Option.elim_none]
  constructor
  · intro s _
    rw [hsame]
  · intro t _ q _ i _ _
    rw [hsame]
  · intro s _ _ i _ _
    rw [hsame]
  · intro s _
    rw [hsame]

/-- A deletion is confined if the links of the chain are safe. If they are not, and the chain
stays in the first of two tables, it is not. -/
theorem delete_confined_iff (hg : Geometry b) (d : Disk) (filename : List UInt8) :
    ((∀ k, lookup b d (formatFatName filename) = some k → SafeChain b d k) →
      DeleteConfined b d filename) ∧
    ((∀ k, lookup b d (formatFatName filename) = some k → StaysInTable b d k) →
      DeleteConfined b d filename →
        ∀ k, lookup b d (formatFatName filename) = some k → SafeChain b d k) := by
  constructor
  · intro h
    cases hlook : lookup b d (formatFatName filename) with
    | none => exact deleteConfined_of_not_found hlook
    | some k => exact (h k hlook).confined hg hlook
  · intro hstays h k hlook
    exact h.safeChain hg hlook (hstays k hlook)

/-- The deletion of a name on the blank small volume. -/
theorem delete_confined_iff_small :
    ((∀ k, lookup (smallBpb 6) blankDisk (formatFatName [0x41]) = some k →
        SafeChain (smallBpb 6) blankDisk k) →
      DeleteConfined (smallBpb 6) blankDisk [0x41]) ∧
    ((∀ k, lookup (smallBpb 6) blankDisk (formatFatName [0x41]) = some k →
        StaysInTable (smallBpb 6) blankDisk k) →
      DeleteConfined (smallBpb 6) blankDisk [0x41] →
        ∀ k, lookup (smallBpb 6) blankDisk (formatFatName [0x41]) = some k →
          SafeChain (smallBpb 6) blankDisk k) :=
  delete_confined_iff smallBpb_six blankDisk [0x41]

/-- The small volume with a file whose first cluster is 512: the table has 256 entries, and
what would be entry 512 are the first two bytes of the data. -/
def damagedDisk : Disk :=
  ataWriteSector
    (ataWriteSector blankDisk 2 (storeDirEntry Sector.zero 0
      { name := formatFatName [0x41], attributes := 0x20, firstCluster := 512, fileSize := 1 }))
    3 (fun _ => 7)

theorem slot_damagedDisk : slot (smallBpb 6) damagedDisk 0 =
    { name := formatFatName [0x41], attributes := 0x20, firstCluster := 512, fileSize := 1 } := by
  have hroot : damagedDisk (smallBpb 6).rootDirSector = storeDirEntry Sector.zero 0
      { name := formatFatName [0x41], attributes := 0x20, firstCluster := 512, fileSize := 1 } := by
    have hsec : (smallBpb 6).rootDirSector = 2 := by decide
    simp [hsec, damagedDisk, ataWriteSector]
  exact slot_zero_of_store hroot (length_formatFatName [0x41]) (by decide) (by decide)

theorem lookup_damagedDisk : lookup (smallBpb 6) damagedDisk (formatFatName [0x41]) = some 0 := by
  refine lookup_eq_zero (by decide) ?_
  rw [slot_damagedDisk]
  decide

theorem getFatEntry_damagedDisk : fat16GetFatEntry (smallBpb 6) damagedDisk 512 = 0x0707 := rfl

/-- Releasing the chain from 512 changes the data sector. -/
theorem Released.ne_damagedDisk {e : Disk} (h : Released (smallBpb 6) damagedDisk 512 e) :
    e 3 ≠ damagedDisk 3 := by
  intro hsame
  have hclear := h.cleared 512 (.here (by decide))
  have hentry := getFatEntry_damagedDisk
  have hsec : (smallBpb 6).reserved + 512 * 2 / 512 = 3 := by decide
  simp only [fat16GetFatEntry, ataReadSector, hsec] at hclear hentry
  rw [hsame, hentry] at hclear
  cases hclear

theorem delete_changes_data :
    (fat16DeleteFile (smallBpb 6) damagedDisk [0x41]).2 3 ≠ damagedDisk 3 := by
  have hstays : StaysInTable (smallBpb 6) damagedDisk 0 := fun ht => absurd ht (by decide)
  have hrel := released_freeChain (smallBpb 6) damagedDisk
    (slot (smallBpb 6) damagedDisk 0).firstCluster (hstays.readable smallBpb_six)
  have hfirst : (slot (smallBpb 6) damagedDisk 0).firstCluster = 512 := by
    rw [slot_damagedDisk]
  rw [hfirst] at hrel
  rw [fat16DeleteFile_of_lookup lookup_damagedDisk, deleteSlot_apply_of_ne (by decide), hfirst]
  exact hrel.ne_damagedDisk

/-- Deleting the file clears two bytes of a data sector. -/
theorem delete_spreads_damage :
    (fat16DeleteFile (smallBpb 6) damagedDisk [0x41]).2 3 ≠ damagedDisk 3 ∧
      ¬ DeleteConfined (smallBpb 6) damagedDisk [0x41] := by
  refine ⟨delete_changes_data, fun h => delete_changes_data (h.data 3 ?_)⟩
  decide

end LispDos.Fat16
