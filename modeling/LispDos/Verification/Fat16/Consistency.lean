import LispDos.Verification.Fat16.Slots
import LispDos.Verification.Fat16.Writing
import LispDos.Verification.Fat16.Reading

/-! # Consistent volumes and the effect of a write

A layout assigns to every live slot the list of its clusters. The effect of
`fat16_write_file` on a volume with a layout is stated once, for all its exits, and
the results about the file system are read off from it. -/

namespace LispDos.Fat16

open Foundation

/-- Valid geometry, a well-formed directory, and chains that stay in the data clusters,
are terminated and pairwise disjoint. A chain that ends repeats no cluster. -/
structure Sound (b : Bpb) (d : Disk) (chain : ℕ → List ℕ) : Prop where
  geometry : Geometry b
  dir : DirOk b d
  chains : ∀ k < slots b, Live (slot b d k) →
    ∃ e, ClusterChain b d (slot b d k).firstCluster (chain k) e ∧ (chain k = [] ∨ 0xFFEF < e)
  range : ∀ k < slots b, Live (slot b d k) → ∀ c ∈ chain k, c ≤ clusters b + 1
  disjoint : ∀ i < slots b, ∀ j < slots b, Live (slot b d i) → Live (slot b d j) → i ≠ j →
    ∀ c ∈ chain i, c ∉ chain j

/-- A full layout: in addition the tables are identical, the directory holds plain
files only, every chain is long enough for its file, and no cluster is orphaned. -/
structure Layout (b : Bpb) (d : Disk) (chain : ℕ → List ℕ) : Prop extends Sound b d chain where
  mirror : Mirror b d
  plain : ∀ k < slots b, Live (slot b d k) → ¬ IsDir (slot b d k)
  enough : ∀ k < slots b, Live (slot b d k) →
    (slot b d k).fileSize ≤ clusterBytes b * (chain k).length
  owned : ∀ c, 2 ≤ c → c ≤ clusters b + 1 → fat16GetFatEntry b d c ≠ 0 →
    ∃ k < slots b, Live (slot b d k) ∧ c ∈ chain k

/-- The volume is consistent. -/
def Consistent (b : Bpb) (d : Disk) : Prop := ∃ chain, Layout b d chain

section

variable {b : Bpb} {d : Disk} {chain : ℕ → List ℕ} {name : List UInt8}
  {buffer : ℕ → UInt8} {size k : ℕ}

theorem Sound.lt_entries (h : Sound b d chain) (hk : k < slots b) (hl : Live (slot b d k)) {c : ℕ}
    (hc : c ∈ chain k) : c < 256 * b.tableSize :=
  h.geometry.lt_entries (h.range k hk hl c hc)

theorem Sound.two_le (h : Sound b d chain) (hk : k < slots b) (hl : Live (slot b d k)) {c : ℕ}
    (hc : c ∈ chain k) : 2 ≤ c := by
  obtain ⟨e, hchain, _⟩ := h.chains k hk hl
  exact (hchain.go_of_mem c hc).1

/-- The clusters of a live entry are occupied. -/
theorem Sound.entry_ne_zero (h : Sound b d chain) (hk : k < slots b) (hl : Live (slot b d k))
    {c : ℕ} (hc : c ∈ chain k) : fat16GetFatEntry b d c ≠ 0 := by
  obtain ⟨e, hchain, hend⟩ := h.chains k hk hl
  rcases hchain.next_mem_or_end hc with hnext | hnext
  · have := (hchain.go_of_mem _ hnext).1
    omega
  · rcases hend with hnil | hend
    · simp [hnil] at hc
    · omega

/-- The chain of a layout is the one the table gives. -/
theorem Sound.chain_unique (h : Sound b d chain) (hk : k < slots b) (hl : Live (slot b d k))
    {l : List ℕ} {e : ℕ} (hc : ClusterChain b d (slot b d k).firstCluster l e) : chain k = l := by
  obtain ⟨e', hchain, _⟩ := h.chains k hk hl
  exact (hchain.unique hc).1

/-! ## The slot a write goes to -/

/-- The slot a write takes and the clusters it frees before it allocates. -/
inductive Target (b : Bpb) (d : Disk) (chain : ℕ → List ℕ) (name : List UInt8) :
    ℕ → List ℕ → Prop where
  | existing (k : ℕ) (hk : k < slots b) (hm : Matches name (slot b d k)) :
      Target b d chain name k (chain k)
  | fresh (k : ℕ) (hk : k < slots b) (hfree : ¬ Live (slot b d k))
      (hlive : ∀ j < k, Live (slot b d j))
      (hno : ∀ j < slots b, ¬ Matches name (slot b d j)) :
      Target b d chain name k []

variable {cs : List ℕ}

theorem Target.lt (h : Target b d chain name k cs) : k < slots b := by
  cases h with
  | existing hk _ => exact hk
  | fresh hk _ _ _ => exact hk

/-- No other live slot bears the name. -/
theorem Target.name_ne (h : Target b d chain name k cs) (hd : DirOk b d) {j : ℕ}
    (hj : j < slots b) (hl : Live (slot b d j)) (hjk : j ≠ k) : (slot b d j).name ≠ name := by
  intro hn
  cases h with
  | existing hk hm => exact hjk (hd.distinct j k hj hk hl hm.1 (hn.trans hm.2.symm))
  | fresh _ _ _ hno => exact hno j hj ⟨hl, hn⟩

theorem Target.mark_ne_zero (h : Target b d chain name k cs) (hd : DirOk b d) {j : ℕ}
    (hj : j < k) : (slot b d j).mark ≠ 0 := by
  cases h with
  | existing hk hm => exact hd.mark_ne_zero hk hm.1 hj
  | fresh _ _ hlive _ => exact (hlive j hj).1

/-- The freed clusters belong to no other live slot. -/
theorem Target.not_mem (h : Target b d chain name k cs) (hs : Sound b d chain) {j c : ℕ}
    (hj : j < slots b) (hl : Live (slot b d j)) (hjk : j ≠ k) (hc : c ∈ chain j) : c ∉ cs := by
  cases h with
  | existing hk hm => exact hs.disjoint j hj k hk hl hm.1 hjk c hc
  | fresh => simp

theorem Target.le_last (h : Target b d chain name k cs) (hs : Sound b d chain) {c : ℕ}
    (hc : c ∈ cs) : 2 ≤ c ∧ c ≤ clusters b + 1 := by
  cases h with
  | existing hk hm => exact ⟨hs.two_le hk hm.1 hc, hs.range k hk hm.1 c hc⟩
  | fresh => simp at hc

/-! ## The effect of a write -/

/-- The clusters a write of the name may take: the free ones of the scan, and those of
the chain it frees. -/
def available (b : Bpb) (d : Disk) (cs : List ℕ) : Finset ℕ :=
  (Finset.Ico 2 (clusters b)).filter fun c => fat16GetFatEntry b d c = 0 ∨ c ∈ cs

theorem mem_available {c : ℕ} : c ∈ available b d cs ↔
    (2 ≤ c ∧ c < clusters b) ∧ (fat16GetFatEntry b d c = 0 ∨ c ∈ cs) := by
  simp [available]

/-- The entry that a completed write stores. -/
def newEntry (name : List UInt8) (first size : ℕ) : DirEntry where
  name := name
  attributes := 0x20
  firstCluster := first
  fileSize := size

/-- All exits of `fat16_write_file` on a volume with a layout. -/
inductive WriteCase (b : Bpb) (d : Disk) (chain : ℕ → List ℕ) (name : List UInt8)
    (buffer : ℕ → UInt8) (size : ℕ) : WriteExit × Disk → Prop where
  | rootFull (hlive : ∀ j < slots b, Live (slot b d j))
      (hno : ∀ j < slots b, ¬ Matches name (slot b d j)) :
      WriteCase b d chain name buffer size (.rootFull, d)
  | diskFull (k : ℕ) (cs l : List ℕ) (r : Disk) (target : Target b d chain name k cs)
      (hcard : (available b d cs).card < need b size)
      (hl : ∀ c ∈ l, c ∈ available b d cs)
      (entry : ∀ x < 256 * b.tableSize,
        fat16GetFatEntry b r x = if x ∈ cs then 0 else fat16GetFatEntry b d x)
      (outside : ∀ s, ¬ InFat b s → (∀ c ∈ l, ¬ InCluster b c s) → r s = d s)
      (mirror : Mirror b d → Mirror b r) :
      WriteCase b d chain name buffer size (.diskFull, r)
  | done (k : ℕ) (cs l : List ℕ) (r : Disk) (target : Target b d chain name k cs)
      (hlen : l.length = need b size)
      (hcard : need b size ≤ (available b d cs).card)
      (hl : ∀ c ∈ l, c ∈ available b d cs)
      (new : ClusterChain b r (l.headD 0) l 0xFFFF)
      (entry : ∀ x < 256 * b.tableSize, x ∉ l →
        fat16GetFatEntry b r x = if x ∈ cs then 0 else fat16GetFatEntry b d x)
      (outside : ∀ s, ¬ InFat b s → s ≠ b.rootDirSector + k / 16 →
        (∀ c ∈ l, ¬ InCluster b c s) → r s = d s)
      (mirror : Mirror b d → Mirror b r)
      (stored : slot b r k = newEntry name (l.headD 0) size)
      (others : ∀ j < slots b, j ≠ k → slot b r j = slot b d j)
      (data : ∀ j c, l[j]? = some c → ∀ i < b.spc,
        r (b.clusterSector c + i) = chunk buffer size (clusterBytes b * j + 512 * i)) :
      WriteCase b d chain name buffer size (.done, r)

/-- The volume after the old chain is freed. -/
structure Freed (b : Bpb) (d d₁ : Disk) (cs : List ℕ) : Prop where
  edit : FatEdit b d d₁
  entry : ∀ x < 256 * b.tableSize,
    fat16GetFatEntry b d₁ x = if x ∈ cs then 0 else fat16GetFatEntry b d x

theorem Freed.freeClusters_eq {d₁ : Disk} (h : Freed b d d₁ cs) (hg : Geometry b) :
    freeClusters b d₁ = available b d cs := by
  ext c
  rw [mem_freeClusters, mem_available]
  refine and_congr_right ?_
  intro hc
  rw [h.entry c (hg.lt_entries (by omega))]
  by_cases hin : c ∈ cs
  · simp [hin]
  · simp [hin]

theorem Freed.slot_eq {d₁ : Disk} (h : Freed b d d₁ cs) {j : ℕ} (hj : j < slots b) :
    slot b d₁ j = slot b d j := by
  apply slot_congr _ hj
  intro s hs _
  exact h.edit.outside s (fun hf => absurd hf.2 (by omega))

theorem rootSector_not_inFat (b : Bpb) (i : ℕ) : ¬ InFat b (b.rootDirSector + i) :=
  fun h => absurd h.2 (by omega)

theorem rootSector_not_inCluster (hk : k < slots b) (c : ℕ) :
    ¬ InCluster b c (b.rootDirSector + k / 16) := by
  intro h
  have := h.dataSector_le
  simp only [slots, Bpb.dataSector] at *
  omega

/-- Steps 2 and 3 of a write, from a volume whose old chain is already freed. -/
theorem writeAtSlot_cases {d₁ : Disk} (hg : Geometry b) (hname : name.length = 11)
    (target : Target b d chain name k cs) (hfreed : Freed b d d₁ cs)
    (buffer : ℕ → UInt8) (hsize : size < 2 ^ 32) :
    WriteCase b d chain name buffer size
      (writeAtSlot b d₁ name buffer size (k / 16) (k % 16)) := by
  have hk := target.lt
  have hloop := writeLoop_cases hg buffer size d₁
  have hdone := hloop.done_iff hg
  rw [hfreed.freeClusters_eq hg] at hdone
  simp only [writeAtSlot]
  generalize writeLoop b buffer size d₁ 0 0 0 = res at hloop hdone
  cases hloop with
  | full l d₂ r h hlen hnone hr =>
      obtain ⟨hentry, hout, hmirror⟩ := h.rollback hg hr
      refine .diskFull k cs l r target (by simpa using hdone) ?_ ?_ ?_ ?_
      · intro c hc
        rw [← hfreed.freeClusters_eq hg]
        exact h.free c hc
      · intro x hx
        rw [hentry x hx, hfreed.entry x hx]
      · intro s hs hc
        rw [hout s hs hc, hfreed.edit.outside s hs]
      · exact fun hm => hmirror (hfreed.edit.mirror hm)
  | done l d₂ h hlen =>
      have hne : l ≠ [] := by
        rintro rfl
        simp only [need, List.length_nil] at hlen
        omega
      have hslot := slot_store (b := b) (d := d₂) (k := k) (e := newEntry name (l.headD 0) size)
        hname (h.headD_lt hg) hsize
      have hother : ∀ s, s ≠ b.rootDirSector + k / 16 → ataWriteSector d₂ (b.rootDirSector + k / 16)
          (storeDirEntry (d₂ (b.rootDirSector + k / 16)) (k % 16)
            (newEntry name (l.headD 0) size)) s = d₂ s :=
        fun s hs => if_neg hs
      change WriteCase b d chain name buffer size (.done, ataWriteSector d₂
        (b.rootDirSector + k / 16) (storeDirEntry (d₂ (b.rootDirSector + k / 16)) (k % 16)
          (newEntry name (l.headD 0) size)))
      generalize ataWriteSector d₂ (b.rootDirSector + k / 16)
        (storeDirEntry (d₂ (b.rootDirSector + k / 16)) (k % 16)
          (newEntry name (l.headD 0) size)) = d₃ at hslot hother
      have hfat : ∀ s, InFat b s → d₃ s = d₂ s := by
        intro s hs
        apply hother
        rintro rfl
        exact rootSector_not_inFat b _ hs
      have hentry := fun x hx => fatEntry_congr hg hfat (x := x) hx
      refine .done k cs l d₃ target hlen (hdone.mp rfl) ?_ ?_ ?_ ?_ ?_ ?_ ?_ ?_
      · intro c hc
        rw [← hfreed.freeClusters_eq hg]
        exact h.free c hc
      · exact (h.chain hne).congr (fun x hx => hentry x (h.lt_entries hg hx))
      · intro x hx hxl
        rw [hentry x hx, h.other x hx hxl, hfreed.entry x hx]
      · intro s hs hsec hc
        rw [hother s hsec, h.outside s hs hc, hfreed.edit.outside s hs]
      · exact fun hm => (h.mirror (hfreed.edit.mirror hm)).congr hfat
      · rw [hslot k, if_pos rfl]
      · intro j hj hjk
        rw [hslot j, if_neg hjk, ← hfreed.slot_eq hj]
        apply slot_congr _ hj
        intro s h₁ h₂
        apply h.outside s (fun hf => absurd hf.2 (by omega))
        intro c _ hin
        exact absurd hin.dataSector_le (by omega)
      · intro j c hj i hi
        have hin : InCluster b c (b.clusterSector c + i) := ⟨by omega, by omega⟩
        rw [hother, h.data j c hj i hi]
        intro he
        rw [he] at hin
        exact rootSector_not_inCluster hk c hin

/-- The effect of `fat16_write_file` on a volume with a layout. -/
theorem fat16WriteRun_cases (h : Sound b d chain) (filename : List UInt8) (buffer : ℕ → UInt8)
    (size : UInt32) :
    WriteCase b d chain (formatFatName filename) buffer size.toNat
      (fat16WriteRun b d filename buffer size) := by
  have hg := h.geometry
  have hname := length_formatFatName filename
  have hsize := size.toNat_lt
  have hslot := h.dir.writeSlot_cases (formatFatName filename)
  simp only [fat16WriteRun]
  generalize writeSlot b d (formatFatName filename) = res at hslot
  cases hslot with
  | existing k hk hm =>
      obtain ⟨e, hchain, _⟩ := h.chains k hk hm.1
      obtain ⟨hedit, hentry⟩ := freeChain_spec hg hchain (fun x hx => h.lt_entries hk hm.1 hx)
      exact writeAtSlot_cases hg hname (.existing k hk hm) ⟨hedit, hentry⟩ buffer hsize
  | fresh k hk hfree hlive hno =>
      exact writeAtSlot_cases hg hname (.fresh k hk hfree hlive hno)
        ⟨FatEdit.refl b d, by simp⟩ buffer hsize
  | full hlive hno => exact .rootFull hlive hno

/-- A write completes when a slot is free or already has the name, and enough clusters
are available. -/
theorem fat16WriteRun_done (h : Sound b d chain) (filename : List UInt8) (buffer : ℕ → UInt8)
    (size : UInt32)
    (hslot : ∃ j < slots b, ¬ Live (slot b d j) ∨ Matches (formatFatName filename) (slot b d j))
    (havail : ∀ k cs, Target b d chain (formatFatName filename) k cs →
      need b size.toNat ≤ (available b d cs).card) :
    (fat16WriteRun b d filename buffer size).1 = .done := by
  have hw := fat16WriteRun_cases h filename buffer size
  generalize fat16WriteRun b d filename buffer size = r at hw
  cases hw with
  | rootFull hlive hno =>
      obtain ⟨j, hj, hfree | hm⟩ := hslot
      · exact (hfree (hlive j hj)).elim
      · exact (hno j hj hm).elim
  | diskFull k cs l r target hcard =>
      have := havail k cs target
      omega
  | done => rfl

end

/-! ## Formatted volumes -/

/-- The disk of a freshly formatted volume: free clusters and an empty directory. -/
def blankDisk : Disk := fun _ => Sector.zero

theorem slot_blankDisk_not_live (b : Bpb) (k : ℕ) : ¬ Live (slot b blankDisk k) := by
  intro hl
  apply hl.1
  rw [slot, blankDisk, mark_dirEntryAt, Sector.byte_zero]

theorem fatEntry_blankDisk (b : Bpb) (x : ℕ) : fat16GetFatEntry b blankDisk x = 0 := by
  simp [fat16GetFatEntry, ataReadSector, blankDisk, Sector.le16, Sector.byte_zero]

/-- A blank disk is consistent under every valid geometry. -/
theorem blankDisk_layout {b : Bpb} (hg : Geometry b) (chain : ℕ → List ℕ) :
    Layout b blankDisk chain where
  geometry := hg
  dir := ⟨fun _ j _ _ _ => slot_blankDisk_not_live b j,
    fun i _ _ _ hl => absurd hl (slot_blankDisk_not_live b i)⟩
  chains := fun k _ hl => absurd hl (slot_blankDisk_not_live b k)
  range := fun k _ hl => absurd hl (slot_blankDisk_not_live b k)
  disjoint := fun i _ _ _ hl => absurd hl (slot_blankDisk_not_live b i)
  mirror := fun _ _ _ => rfl
  plain := fun k _ hl => absurd hl (slot_blankDisk_not_live b k)
  enough := fun k _ hl => absurd hl (slot_blankDisk_not_live b k)
  owned := fun c _ _ hne => absurd (fatEntry_blankDisk b c) hne

/-- A small geometry: one table of one sector, one root sector, one sector per cluster,
and the given number of sectors in all, three of which come before the data. -/
def smallBpb (totalSectors : UInt16) : Bpb where
  bytesPerSector := 512
  sectorsPerCluster := 1
  reservedSectorCount := 1
  tableCount := 1
  rootEntryCount := 16
  totalSectors16 := totalSectors
  tableSize16 := 1
  totalSectors32 := 0

theorem smallBpb_six : Geometry (smallBpb 6) :=
  ⟨rfl, by decide, by decide, by decide, by decide, by decide, by decide, by decide⟩

end LispDos.Fat16
