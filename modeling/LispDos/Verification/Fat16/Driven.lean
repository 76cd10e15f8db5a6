import LispDos.Kernel.Fat16Driver
import LispDos.Verification.Devices.Drive
import LispDos.Verification.Fat16.FileStore

/-! # A volume behind the driver

On a drive that has the sectors of the volume, the functions of `fat16.c` over the driver do what
the functions on a disk do: the answers of any sequence of calls are those of a file store. -/

namespace LispDos.Driven

open Foundation Ata Fat16

/-! ## What code does on a disk -/

/-- On a disk the code gives a result and a disk, and it comes to sectors of the drive only. -/
structure Performs {α : Type} (capacity : ℕ) (p : Client α) (d : Disk) (a : α) (d' : Disk) : Prop where
  result : p.onDisk d = (a, d')
  inside : p.Inside capacity d

variable {α β : Type} {capacity : ℕ} {b : Bpb} {d d' d'' : Disk} {a : α} {r : β} {n c : ℕ}

theorem onDisk_bind (p : Client α) (f : α → Client β) (d : Disk) :
    (p >>= f).onDisk d = (f (p.onDisk d).1).onDisk (p.onDisk d).2 := by
  induction p generalizing d with
  | done a => rfl
  | read lba next ih => exact ih _ d
  | write lba buffer next ih => exact ih _

theorem inside_bind (p : Client α) (f : α → Client β) (d : Disk) :
    (p >>= f).Inside capacity d ↔
      p.Inside capacity d ∧ (f (p.onDisk d).1).Inside capacity (p.onDisk d).2 := by
  induction p generalizing d with
  | done a => exact ⟨fun h => ⟨trivial, h⟩, And.right⟩
  | read lba next ih => exact (and_congr_right fun _ => ih _ d).trans and_assoc.symm
  | write lba buffer next ih => exact (and_congr_right fun _ => ih _).trans and_assoc.symm

namespace Performs

theorem pure (a : α) (d : Disk) : Performs capacity (pure a) d a d := ⟨rfl, trivial⟩

theorem bind {p : Client α} {f : α → Client β} (h : Performs capacity p d a d')
    (hf : Performs capacity (f a) d' r d'') : Performs capacity (p >>= f) d r d'' where
  result := by rw [onDisk_bind, h.result, hf.result]
  inside := (inside_bind p f d).mpr ⟨h.inside, by rw [h.result]; exact hf.inside⟩

end Performs

/-- The drive has room for the volume. -/
structure Fits (b : Bpb) (capacity : ℕ) : Prop where
  geometry : Geometry b
  room : totalSectors b ≤ capacity
  lba28 : capacity ≤ 2 ^ 28

theorem ofNat_mod (hn : n < capacity) (hcap : capacity ≤ 2 ^ 28) :
    (UInt32.ofNat n).toNat % 2 ^ 28 = n := by
  rw [UInt32.toNat_ofNat']
  omega

namespace Fits

variable (h : Fits b capacity)
include h

theorem read (hn : n < totalSectors b) : Performs capacity (ataReadSector n) d (d n) d := by
  have hlt := hn.trans_le h.room
  have haddr := ofNat_mod hlt h.lba28
  refine ⟨?_, by rwa [haddr], trivial⟩
  show (LispDos.ataReadSector d ((UInt32.ofNat n).toNat % 2 ^ 28), d) = _
  rw [haddr]
  rfl

theorem write (hn : n < totalSectors b) (buffer : Sector) :
    Performs capacity (ataWriteSector n buffer) d () (LispDos.ataWriteSector d n buffer) := by
  have hlt := hn.trans_le h.room
  have haddr := ofNat_mod hlt h.lba28
  refine ⟨?_, by rwa [haddr], trivial⟩
  show ((), LispDos.ataWriteSector d ((UInt32.ofNat n).toNat % 2 ^ 28) buffer) = _
  rw [haddr]

end Fits

/-! ## The allocation table -/

/-- The sectors of an entry lie in the volume. -/
theorem fatSector_lt (hg : Geometry b) (hc : c < 256 * b.tableSize) :
    b.reserved + c * 2 / 512 < totalSectors b ∧
      (1 < b.tables → b.reserved + c * 2 / 512 + b.tableSize < totalSectors b) := by
  obtain ⟨hone, htwo⟩ := hg.tables_mul
  have hroot := (rootDirSector_le_dataSector b).trans hg.fits
  rw [Bpb.rootDirSector] at hroot
  refine ⟨by omega, fun ht => ?_⟩
  have := htwo ht
  omega

theorem rootSector_lt (hg : Geometry b) {sec : ℕ} (hsec : sec < b.rootDirSize) :
    b.rootDirSector + sec < totalSectors b := by
  have hfits := hg.fits
  rw [Bpb.dataSector] at hfits
  omega

theorem clusterSector_lt_totalSectors (hg : Geometry b) (hc : 2 ≤ c) (hlast : c ≤ clusters b + 1)
    {i : ℕ} (hi : i < b.spc) : b.clusterSector c + i < totalSectors b := by
  have hfits := hg.fits
  have hmul : clusters b * b.spc ≤ totalSectors b - b.dataSector := Nat.div_mul_le_self _ _
  have hcluster : (c - 2 + 1) * b.spc ≤ clusters b * b.spc := Nat.mul_le_mul_right _ (by omega)
  rw [Nat.add_mul, Nat.one_mul] at hcluster
  rw [Bpb.clusterSector]
  omega

/-- What a chain comes to is a cluster of the volume. -/
def InVolume (b : Bpb) (c : ℕ) : Prop := IsCluster c → c ≤ clusters b + 1

/-- No chain leads out of the volume. -/
structure Enclosed (b : Bpb) (d : Disk) : Prop where
  links : ∀ c, 2 ≤ c → c ≤ clusters b + 1 → InVolume b (LispDos.fat16GetFatEntry b d c)
  files : ∀ k < slots b, Live (slot b d k) → InVolume b (slot b d k).firstCluster

theorem inVolume_zero (b : Bpb) : InVolume b 0 := fun hc => absurd hc.1 (by decide)

theorem Enclosed.next (h : Enclosed b d) (hin : InVolume b c) (hc : IsCluster c) :
    InVolume b (LispDos.fat16GetFatEntry b d c) := h.links c hc.1 (hin hc)

theorem Enclosed.set (hg : Geometry b) (h : Enclosed b d) (hc : c ≤ clusters b + 1) {v : ℕ}
    (hv : InVolume b v) (hlt : v < 65536) : Enclosed b (LispDos.fat16SetFatEntry b d c v) where
  links x hx hlast := by
    rw [fatEntry_set (hg.lt_entries hlast) hlt]
    split
    · exact hv
    · exact h.links x hx hlast
  files k hk := by
    have houtside := (fatEdit_set (d := d) hg (hg.lt_entries hc) v).outside
    rw [slot_congr (fun t ht _ => houtside t fun hfat => absurd hfat.2 (by omega)) hk]
    exact h.files k hk

/-- Sectors behind the tables hold no links. -/
theorem Enclosed.links_write (hg : Geometry b) (h : Enclosed b d) (hn : b.rootDirSector ≤ n)
    (s : Sector) (hx : 2 ≤ c) (hlast : c ≤ clusters b + 1) :
    InVolume b (LispDos.fat16GetFatEntry b (LispDos.ataWriteSector d n s) c) := by
  have hsame : ∀ t, InFat b t → LispDos.ataWriteSector d n s t = d t := fun t ht =>
    if_neg (by have := ht.2; omega)
  rw [fatEntry_congr hg hsame (hg.lt_entries hlast)]
  exact h.links c hx hlast

theorem Enclosed.writeData (hg : Geometry b) (h : Enclosed b d) (hn : b.dataSector ≤ n) (s : Sector) :
    Enclosed b (LispDos.ataWriteSector d n s) where
  links _ hx hlast := h.links_write hg ((rootDirSector_le_dataSector b).trans hn) s hx hlast
  files k hk := by
    have hsame : ∀ t, b.rootDirSector ≤ t → t < b.dataSector → LispDos.ataWriteSector d n s t = d t :=
      fun t _ ht => if_neg (by omega)
    rw [slot_congr hsame hk]
    exact h.files k hk

/-- The new sector of the root directory has the old entries but one. -/
theorem Enclosed.writeRoot (hg : Geometry b) (h : Enclosed b d) {k : ℕ} {s : Sector}
    (hother : ∀ j, j ≠ k % 16 → j < 16 →
      dirEntryAt s j = dirEntryAt (d (b.rootDirSector + k / 16)) j)
    (hentry : Live (dirEntryAt s (k % 16)) → InVolume b (dirEntryAt s (k % 16)).firstCluster) :
    Enclosed b (LispDos.ataWriteSector d (b.rootDirSector + k / 16) s) where
  links _ hx hlast := h.links_write hg (Nat.le_add_right _ _) s hx hlast
  files j hj := by
    rw [slot_write s hother]
    split
    · exact hentry
    · exact h.files j hj

namespace Fits

variable (h : Fits b capacity)
include h

theorem getFatEntry (hc : c ≤ clusters b + 1) : Performs capacity (fat16GetFatEntry b c) d
    (LispDos.fat16GetFatEntry b d c) d :=
  (h.read (fatSector_lt h.geometry (h.geometry.lt_entries hc)).1).bind (.pure _ d)

theorem setFatEntry (hc : c ≤ clusters b + 1) (v : ℕ) : Performs capacity (fat16SetFatEntry b c v) d
    () (LispDos.fat16SetFatEntry b d c v) := by
  obtain ⟨hone, htwo⟩ := fatSector_lt h.geometry (h.geometry.lt_entries hc)
  refine (h.read hone).bind ((h.write hone _).bind ?_)
  rw [LispDos.fat16SetFatEntry]
  by_cases ht : b.tables > 1
  · simp only [if_pos ht]
    exact h.write (htwo ht) _
  · simp only [if_neg ht]
    exact .pure () _

end Fits

/-! ## Freeing and allocating -/

/-- The rounds that are left for a chain. -/
def rounds (b : Bpb) (d : Disk) (c : ℕ) : ℕ := if IsCluster c then occupied b d 0x10000 + 1 else 0

theorem rounds_next (b : Bpb) (d : Disk) (hc : IsCluster c) :
    rounds b (LispDos.fat16SetFatEntry b d c 0) (LispDos.fat16GetFatEntry b d c) < rounds b d c := by
  rw [rounds, rounds, if_pos hc]
  split
  · rename_i hnext
    have hne : LispDos.fat16GetFatEntry b d c ≠ 0 := by
      have := hnext.1
      omega
    have hlt : c < 0x10000 := by
      have := hc.2
      omega
    exact Nat.succ_lt_succ (occupied_lt_of_clear b d hlt hne)
  · exact Nat.succ_pos _

theorem occupied_lt (b : Bpb) (d : Disk) (n : ℕ) : occupied b d n < 2 ^ n := by
  induction n with
  | zero => exact Nat.one_pos
  | succ n ih =>
      rw [occupied, Nat.pow_succ]
      split <;> omega

theorem rounds_le (b : Bpb) (d : Disk) (c : ℕ) : rounds b d c ≤ maxRounds := by
  rw [rounds, maxRounds]
  split
  · exact occupied_lt b d 0x10000
  · exact Nat.zero_le _

namespace Fits

variable (h : Fits b capacity)
include h

theorem freeRounds (hd : Enclosed b d) (hin : InVolume b c) (hn : rounds b d c ≤ n) :
    Performs capacity (freeRounds b n c) d () (LispDos.freeChain b d c) ∧
      Enclosed b (LispDos.freeChain b d c) ∧ FatEdit b d (LispDos.freeChain b d c) := by
  induction n generalizing d c with
  | zero =>
      have hc : ¬ IsCluster c := by
        intro hc
        rw [rounds, if_pos hc] at hn
        omega
      rw [LispDos.freeChain, if_neg hc]
      exact ⟨.pure () d, hd, .refl b d⟩
  | succ n ih =>
      rw [LispDos.freeChain, Driven.freeRounds]
      by_cases hc : IsCluster c
      · have hnext := rounds_next b d hc
        have hclear := hd.set h.geometry (hin hc) (inVolume_zero b) (by decide)
        have hedit := fatEdit_set (d := d) h.geometry (h.geometry.lt_entries (hin hc)) 0
        obtain ⟨hrest, hd', hedit'⟩ := ih hclear (hd.next hin hc) (by omega)
        rw [if_pos hc, if_pos hc]
        exact ⟨(h.getFatEntry (hin hc)).bind ((h.setFatEntry (hin hc) 0).bind hrest), hd',
          hedit.trans hedit'⟩
      · rw [if_neg hc, if_neg hc]
        exact ⟨.pure () d, hd, .refl b d⟩

theorem freeChain (hd : Enclosed b d) (hin : InVolume b c) :
    Performs capacity (freeChain b c) d () (LispDos.freeChain b d c) ∧
      Enclosed b (LispDos.freeChain b d c) ∧ FatEdit b d (LispDos.freeChain b d c) :=
  h.freeRounds hd hin (rounds_le b d c)

/-- The scan takes the first free cluster. -/
theorem allocScan {scan : List ℕ} (hscan : ∀ i ∈ scan, i ≤ clusters b + 1) :
    Performs capacity (allocScan b scan) d
      ((scan.find? fun i => LispDos.fat16GetFatEntry b d i = 0).getD 0)
      ((scan.find? fun i => LispDos.fat16GetFatEntry b d i = 0).elim d
        fun i => LispDos.fat16SetFatEntry b d i 0xFFFF) := by
  induction scan with
  | nil => exact .pure 0 d
  | cons i is ih =>
      obtain ⟨hi, his⟩ := List.forall_mem_cons.mp hscan
      refine (h.getFatEntry hi).bind ?_
      by_cases hfree : LispDos.fat16GetFatEntry b d i = 0
      · rw [List.find?_cons_of_pos (by simpa using hfree), if_pos hfree]
        exact (h.setFatEntry hi 0xFFFF).bind (.pure i _)
      · rw [List.find?_cons_of_neg (by simpa using hfree), if_neg hfree]
        exact ih his

theorem allocCluster : ∃ newC d', LispDos.fat16AllocCluster b d = some (newC, d') ∧
    Performs capacity (fat16AllocCluster b) d (some newC) d' := by
  have hscan : ∀ i ∈ List.range' 2 (min (clusters b) 0xFFF0 - 2), i ≤ clusters b + 1 := by
    intro i hi
    have := (List.mem_range'_1.mp hi).2
    omega
  have hperforms := h.allocScan (d := d) hscan
  rw [LispDos.fat16AllocCluster, Driven.fat16AllocCluster, h.geometry.totalClusters_eq]
  simp only [Option.map_some]
  cases hfind : (List.range' 2 (min (clusters b) 0xFFF0 - 2)).find?
      fun i => LispDos.fat16GetFatEntry b d i = 0 with
  | none =>
      rw [hfind] at hperforms
      exact ⟨0, d, rfl, hperforms.bind (.pure _ _)⟩
  | some i =>
      rw [hfind] at hperforms
      exact ⟨i, _, rfl, hperforms.bind (.pure _ _)⟩

end Fits

/-! ## Looking up a name -/

/-- The entry in a slot, as the loops over the directory come to it. -/
def foundAt (b : Bpb) (d : Disk) (k : ℕ) : Found := ⟨d (b.rootDirSector + k / 16), k / 16, k % 16⟩

theorem scanRoot_matchEntry (b : Bpb) (d : Disk) (name : List UInt8) :
    (scanRoot b d (matchEntry name)).getD none = (lookup b d name).map (foundAt b d) := by
  rw [scanRoot_eq]
  have hscan := findSome?_eq_lookupIn (slot b d) name none (fun k => some (foundAt b d k))
    (List.range (slots b))
  refine Eq.trans hscan ?_
  show (lookup b d name).elim none _ = _
  cases lookup b d name <;> rfl

namespace Fits

variable (h : Fits b capacity)
include h

theorem findSectors (name : List UInt8) {secs : List ℕ} (hsecs : ∀ sec ∈ secs, sec < b.rootDirSize) :
    Performs capacity (findSectors b name secs) d
      ((secs.findSome? fun sec =>
        (List.range 16).findSome? (matchEntry name (d (b.rootDirSector + sec)) sec)).getD none) d := by
  induction secs with
  | nil => exact .pure none d
  | cons sec secs ih =>
      obtain ⟨hsec, hrest⟩ := List.forall_mem_cons.mp hsecs
      refine (h.read (rootSector_lt h.geometry hsec)).bind ?_
      rw [List.findSome?_cons]
      cases (List.range 16).findSome? (matchEntry name (d (b.rootDirSector + sec)) sec) with
      | none => exact ih hrest
      | some found => exact .pure found d

theorem findFile (filename : List UInt8) : Performs capacity (findFile b filename) d
    ((lookup b d (formatFatName filename)).map (foundAt b d)) d := by
  rw [← scanRoot_matchEntry]
  exact h.findSectors _ fun sec hsec => List.mem_range.mp hsec

theorem getFileSize (filename : List UInt8) : Performs capacity (fat16GetFileSize b filename) d
    (LispDos.fat16GetFileSize b d filename) d := by
  refine (h.findFile filename).bind ?_
  rw [fat16GetFileSize_eq]
  cases lookup b d (formatFatName filename) <;> exact .pure _ d

end Fits

/-! ## Reading -/

namespace Fits

variable (h : Fits b capacity)
include h

theorem readSectors (size : ℕ) {sector : ℕ} (hsectors : ∀ i < n, sector + i < totalSectors b)
    (bytesRead : ℕ) : Performs capacity (readSectors size n sector bytesRead) d
      (LispDos.readSectors d size n sector bytesRead) d := by
  induction n generalizing sector bytesRead with
  | zero => exact .pure _ d
  | succ n ih =>
      rw [Driven.readSectors, LispDos.readSectors]
      refine (h.read (hsectors 0 (Nat.succ_pos n))).bind ?_
      simp only [LispDos.ataReadSector]
      split
      · exact .pure _ d
      · have hrest : ∀ i < n, sector + 1 + i < totalSectors b := fun i hi => by
          have := hsectors (i + 1) (Nat.succ_lt_succ hi)
          omega
        exact (ih hrest _).bind (.pure _ d)

theorem readLoop (hd : Enclosed b d) (size : ℕ) (hin : InVolume b c) (bytesRead : ℕ) :
    Performs capacity (readLoop b size n c bytesRead) d (LispDos.readLoop b d size n c bytesRead) d := by
  induction n generalizing c bytesRead with
  | zero => exact .pure none d
  | succ n ih =>
      rw [Driven.readLoop, LispDos.readLoop]
      by_cases hc : IsCluster c
      · rw [if_pos hc, if_pos hc]
        have hsectors : ∀ i < b.spc, b.clusterSector c + i < totalSectors b := fun i hi =>
          clusterSector_lt_totalSectors h.geometry hc.1 (hin hc) hi
        have hcopied := h.readSectors (d := d) size hsectors bytesRead
        generalize LispDos.readSectors d size b.spc (b.clusterSector c) bytesRead = copied at hcopied ⊢
        obtain ⟨stores, copied⟩ := copied
        refine hcopied.bind ?_
        by_cases hfull : size ≤ copied
        · simp only [if_pos hfull]
          exact .pure _ d
        · simp only [if_neg hfull]
          exact (h.getFatEntry (hin hc)).bind ((ih (hd.next hin hc) _).bind (.pure _ d))
      · rw [if_neg hc, if_neg hc]
        exact .pure _ d

theorem readFile (hd : Enclosed b d) (filename : List UInt8) :
    Performs capacity (fat16ReadFile b filename) d (LispDos.fat16ReadFile b d filename) d := by
  refine (h.findFile filename).bind ?_
  rw [fat16ReadFile_eq]
  cases hlookup : lookup b d (formatFatName filename) with
  | none => exact .pure _ d
  | some k =>
      obtain ⟨hk, hfile, _⟩ := (lookup_eq_some_iff b d _ k).mp hlookup
      exact (h.readLoop hd _ (hd.files k hk hfile.1) 0).bind (.pure _ d)

end Fits

/-! ## Deleting and listing -/

theorem dirLoop_append (es es' : List DirEntry) :
    dirLoop (es ++ es') = if es.any fun e => e.mark = 0 then dirLoop es else dirLoop es ++ dirLoop es' := by
  induction es with
  | nil => rfl
  | cons e es ih =>
      rw [List.cons_append, dirLoop, dirLoop, ih]
      by_cases hend : e.mark = 0
      · simp [hend]
      · simp only [hend, if_false, List.any_cons, decide_false, Bool.false_or]
        split_ifs <;> rfl

namespace Fits

variable (h : Fits b capacity)
include h

theorem deleteFile (hd : Enclosed b d) (filename : List UInt8) :
    Performs capacity (fat16DeleteFile b filename) d (LispDos.fat16DeleteFile b d filename).1
        (LispDos.fat16DeleteFile b d filename).2 ∧
      Enclosed b (LispDos.fat16DeleteFile b d filename).2 := by
  rw [fat16DeleteFile_eq]
  have hfind := h.findFile (d := d) filename
  cases hlookup : lookup b d (formatFatName filename) with
  | none =>
      rw [hlookup] at hfind
      exact ⟨hfind.bind (.pure 0 d), hd⟩
  | some k =>
      rw [hlookup] at hfind
      obtain ⟨hk, hfile, _⟩ := (lookup_eq_some_iff b d _ k).mp hlookup
      obtain ⟨hfree, hd', hedit⟩ := h.freeChain hd (hd.files k hk hfile.1)
      have hsec : k / 16 < b.rootDirSize := by
        rw [slots] at hk
        omega
      have hwrite := h.write (d := LispDos.freeChain b d (slot b d k).firstCluster)
        (rootSector_lt h.geometry hsec) ((d (b.rootDirSector + k / 16)).setByte (32 * (k % 16)) 0xE5)
      have hi : k % 16 < 16 := Nat.mod_lt _ (by decide)
      refine ⟨hfind.bind (hfree.bind (hwrite.bind (.pure 1 _))), ?_⟩
      refine hd'.writeRoot h.geometry (fun j hj _ => ?_) fun hlive => absurd (mark_setMark _ hi 0xE5) hlive.2
      rw [dirEntryAt_setMark_of_ne _ hi hj, hedit.outside _ fun hfat => absurd hfat.2 (by omega)]

theorem dirSectors {secs : List ℕ} (hsecs : ∀ sec ∈ secs, sec < b.rootDirSize) :
    Performs capacity (dirSectors b secs) d
      (dirLoop (secs.flatMap fun sec =>
        (List.range 16).map (dirEntryAt (d (b.rootDirSector + sec))))) d := by
  induction secs with
  | nil => exact .pure [] d
  | cons sec secs ih =>
      obtain ⟨hsec, hrest⟩ := List.forall_mem_cons.mp hsecs
      refine (h.read (rootSector_lt h.geometry hsec)).bind ?_
      rw [List.flatMap_cons, dirLoop_append]
      generalize (List.range 16).map (dirEntryAt (d (b.rootDirSector + sec))) = entries
      by_cases hend : (entries.any fun e => e.mark = 0) = true
      · simp only [if_pos hend]
        exact .pure _ d
      · simp only [if_neg hend]
        exact (ih hrest).bind (.pure _ d)

theorem dir : Performs capacity (fat16Dir b) d (LispDos.fat16Dir b d) d :=
  (h.dirSectors fun _ hsec => List.mem_range.mp hsec).bind (.pure _ d)

end Fits

/-! ## Writing -/

/-- The first cluster of the entry that a slot search has found. -/
def firstCluster (b : Bpb) (d : Disk) : WriteSlot → ℕ
  | .existing sec i => (dirEntryAt (d (b.rootDirSector + sec)) i).firstCluster
  | .free _ => 0

/-- What a write leaves, and the first cluster of its chain. -/
structure Written (b : Bpb) (r : WriteExit × Disk × ℕ) : Prop where
  enclosed : Enclosed b r.2.1
  inVolume : InVolume b r.2.2
  small : r.2.2 < 65536

namespace Fits

variable (h : Fits b capacity) (buffer : ℕ → UInt8) (size : ℕ)
include h

theorem searchSectors (name : List UInt8) {secs : List ℕ} (hsecs : ∀ sec ∈ secs, sec < b.rootDirSize)
    (target : Option (ℕ × ℕ)) : Performs capacity (searchSectors b name secs target) d
      (LispDos.searchSectors b d name secs target,
        firstCluster b d (LispDos.searchSectors b d name secs target)) d := by
  induction secs generalizing target with
  | nil => exact .pure _ d
  | cons sec secs ih =>
      obtain ⟨hsec, hrest⟩ := List.forall_mem_cons.mp hsecs
      rw [Driven.searchSectors, LispDos.searchSectors]
      refine (h.read (rootSector_lt h.geometry hsec)).bind ?_
      simp only [LispDos.ataReadSector]
      cases hslots : searchSlots (d (b.rootDirSector + sec)) name sec (List.range 16) target with
      | existing sec' i =>
          have hfound := hslots
          rw [List.range_eq_range'] at hfound
          obtain ⟨rfl, -⟩ := (searchSlots_existing_iff _ _ _ _ _ _ _ _).mp hfound
          exact .pure _ d
      | free target' => exact ih hrest target'

theorem writeSectors (hd : Enclosed b d) {sector : ℕ} (hdata : b.dataSector ≤ sector)
    (hsectors : ∀ i < n, sector + i < totalSectors b) (written : ℕ) :
    Performs capacity (writeSectors buffer size n sector written) d
        (LispDos.writeSectors buffer size n sector d written).2
        (LispDos.writeSectors buffer size n sector d written).1 ∧
      Enclosed b (LispDos.writeSectors buffer size n sector d written).1 := by
  induction n generalizing sector d written with
  | zero => exact ⟨.pure _ d, hd⟩
  | succ n ih =>
      have hrest : ∀ i < n, sector + 1 + i < totalSectors b := fun i hi => by
        have := hsectors (i + 1) (Nat.succ_lt_succ hi)
        omega
      obtain ⟨hothers, hd'⟩ := ih
        (hd.writeData h.geometry hdata (fillBuf buffer size 512 Sector.zero written).1)
        (Nat.le_succ_of_le hdata) hrest (fillBuf buffer size 512 Sector.zero written).2
      exact ⟨(h.write (hsectors 0 (Nat.succ_pos n)) _).bind hothers, hd'⟩

theorem linkCluster (hd : Enclosed b d) {first current newC : ℕ}
    (hcurrent : first ≠ 0 → current ≤ clusters b + 1) (hnew : newC ≤ clusters b + 1) :
    Performs capacity (linkCluster b first current newC) d (if first = 0 then newC else first)
        (if first = 0 then d else LispDos.fat16SetFatEntry b d current newC) ∧
      Enclosed b (if first = 0 then d else LispDos.fat16SetFatEntry b d current newC) := by
  have hlast := h.geometry.last
  rw [Driven.linkCluster]
  by_cases hfirst : first = 0
  · rw [if_pos hfirst, if_pos hfirst, if_pos hfirst]
    exact ⟨.pure _ d, hd⟩
  · rw [if_neg hfirst, if_neg hfirst, if_neg hfirst]
    exact ⟨(h.setFatEntry (hcurrent hfirst) newC).bind (.pure _ _),
      hd.set h.geometry (hcurrent hfirst) (fun _ => hnew) (by omega)⟩

theorem rollBack (hd : Enclosed b d) {first : ℕ} (hin : InVolume b first) :
    Performs capacity (rollBack b first) d () (if first ≠ 0 then LispDos.freeChain b d first else d) ∧
      Enclosed b (if first ≠ 0 then LispDos.freeChain b d first else d) := by
  rw [Driven.rollBack]
  split
  · obtain ⟨hfree, hd', _⟩ := h.freeChain hd hin
    exact ⟨hfree, hd'⟩
  · exact ⟨.pure () d, hd⟩

/-- The cluster that is allocated, and the disk. -/
theorem alloc (hd : Enclosed b d) : ∃ newC d', LispDos.fat16AllocCluster b d = some (newC, d') ∧
    Performs capacity (fat16AllocCluster b) d (some newC) d' ∧ Enclosed b d' ∧
      (newC ≠ 0 → 2 ≤ newC) ∧ newC ≤ clusters b + 1 := by
  obtain ⟨newC, d', halloc, hperforms⟩ := h.allocCluster (d := d)
  have hcases := fat16AllocCluster_cases h.geometry d
  rw [halloc] at hcases
  cases hcases with
  | full _ => exact ⟨0, d, halloc, hperforms, hd, fun hne => absurd rfl hne, Nat.zero_le _⟩
  | taken _ hc _ =>
      obtain ⟨⟨hlow, hhigh⟩, _⟩ := mem_freeClusters.mp hc
      have hend : InVolume b 0xFFFF := fun hcluster => absurd hcluster.2 (by decide)
      exact ⟨newC, _, halloc, hperforms, hd.set h.geometry (by omega) hend (by decide), fun _ => hlow,
        by omega⟩

theorem writeLoop (hd : Enclosed b d) {first current written : ℕ}
    (hcurrent : first ≠ 0 → current ≤ clusters b + 1) (hfirst : first ≤ clusters b + 1)
    (hn : size - written < n) {r : WriteExit × Disk × ℕ}
    (hr : LispDos.writeLoop b buffer size d first current written = r) :
    Performs capacity (writeLoop b buffer size n first current written) d (r.1, r.2.2) r.2.1 ∧
      Written b r := by
  have hlast := h.geometry.last
  induction n generalizing d first current written with
  | zero => exact absurd hn (Nat.not_lt_zero _)
  | succ n ih =>
      rw [Driven.writeLoop]
      rw [LispDos.writeLoop] at hr
      by_cases hguard : written < size ∨ (size = 0 ∧ first = 0)
      · rw [if_pos hguard] at hr ⊢
        obtain ⟨newC, d', halloc, hperforms, hd', hlow, hnew⟩ := h.alloc hd
        split at hr
        · rename_i hnone
          rw [halloc] at hnone
          cases hnone
        · rename_i newC' d'' halloc'
          rw [halloc] at halloc'
          cases halloc'
          by_cases hzero : newC = 0
          · rw [if_pos hzero] at hr
            have hin : InVolume b first := fun _ => hfirst
            obtain ⟨hback, hdback⟩ := h.rollBack hd' hin
            subst hr
            refine ⟨hperforms.bind ?_, hdback, hin, by
              show first < 65536
              omega⟩
            simp only [if_pos hzero]
            exact hback.bind (.pure _ _)
          · rw [if_neg hzero] at hr
            obtain ⟨hlink, hdlink⟩ := h.linkCluster hd' hcurrent hnew
            have hsectors : ∀ i < b.spc, b.clusterSector newC + i < totalSectors b := fun i hi =>
              clusterSector_lt_totalSectors h.geometry (hlow hzero) hnew hi
            have hfirst' : (if first = 0 then newC else first) ≤ clusters b + 1 := by split <;> assumption
            obtain ⟨hwrite, hdwrite⟩ := h.writeSectors buffer size hdlink
              (dataSector_le_clusterSector b newC) hsectors written
            simp only at hr
            by_cases hempty : size = 0
            · rw [if_pos hempty] at hr
              subst hr
              refine ⟨hperforms.bind ?_, hdwrite, fun _ => hfirst', by
                show (if first = 0 then newC else first) < 65536
                omega⟩
              simp only [if_neg hzero, if_pos hempty]
              exact hlink.bind (hwrite.bind (.pure _ _))
            · rw [if_neg hempty] at hr
              have hprogress := writeSectors_snd buffer size b.spc (b.clusterSector newC)
                (if first = 0 then d' else LispDos.fat16SetFatEntry b d' current newC) written (by omega)
              have hspc := h.geometry.spc
              obtain ⟨hrest, hwritten⟩ := ih hdwrite (fun _ => hnew) hfirst'
                (by rw [hprogress]; omega) hr
              refine ⟨hperforms.bind ?_, hwritten⟩
              simp only [if_neg hzero, if_neg hempty]
              exact hlink.bind (hwrite.bind hrest)
      · rw [if_neg hguard] at hr ⊢
        subst hr
        exact ⟨.pure _ d, hd, fun _ => hfirst, by
          show first < 65536
          omega⟩

/-- The entry for what the loop has written is stored in the slot that was searched. -/
theorem writeAtSlot (hd : Enclosed b d) (filename : List UInt8) (hsize : size < 2 ^ 32) {sec idx : ℕ}
    (hsec : sec < b.rootDirSize) (hidx : idx < 16) :
    Performs capacity (writeAtSlot b (formatFatName filename) buffer size sec idx) d
        (LispDos.writeAtSlot b d (formatFatName filename) buffer size sec idx).1
        (LispDos.writeAtSlot b d (formatFatName filename) buffer size sec idx).2 ∧
      Enclosed b (LispDos.writeAtSlot b d (formatFatName filename) buffer size sec idx).2 := by
  obtain ⟨hloop, hd', hin, hsmall⟩ := h.writeLoop buffer size hd (fun hne => absurd rfl hne)
    (Nat.zero_le _) (show size - 0 < size + 2 by omega) rfl
  rw [LispDos.writeAtSlot, Driven.writeAtSlot]
  generalize LispDos.writeLoop b buffer size d 0 0 0 = r at hloop hd' hin hsmall ⊢
  obtain ⟨exit, d', first⟩ := r
  have hroot := rootSector_lt h.geometry hsec
  cases exit with
  | divideError => exact ⟨hloop.bind (.pure _ _), hd'⟩
  | rootFull => exact ⟨hloop.bind (.pure _ _), hd'⟩
  | diskFull => exact ⟨hloop.bind (.pure _ _), hd'⟩
  | done =>
      refine ⟨hloop.bind ((h.read hroot).bind ((h.write hroot _).bind (.pure _ _))), ?_⟩
      have hslot : sec = (16 * sec + idx) / 16 ∧ idx = (16 * sec + idx) % 16 := by omega
      have hself := dirEntryAt_store_self (d' (b.rootDirSector + sec)) hidx
        (e := ⟨formatFatName filename, 0x20, first, size⟩) (length_formatFatName filename) hsmall hsize
      have hstore := hd'.writeRoot h.geometry (k := 16 * sec + idx)
        (s := storeDirEntry (d' (b.rootDirSector + sec)) idx ⟨formatFatName filename, 0x20, first, size⟩)
      rw [← hslot.1, ← hslot.2] at hstore
      refine hstore (fun j hj _ => dirEntryAt_store_of_ne _ hidx hj _) fun _ => ?_
      rw [hself]
      exact hin

theorem writeFile (hd : Enclosed b d) (filename : List UInt8) (size : UInt32) :
    Performs capacity (fat16WriteFile b filename buffer size) d
        (LispDos.fat16WriteFile b d filename buffer size).1
        (LispDos.fat16WriteFile b d filename buffer size).2 ∧
      Enclosed b (LispDos.fat16WriteFile b d filename buffer size).2 := by
  have hsize := size.toNat_lt
  have hsearch : Performs capacity (Driven.searchSectors b _ _ none) d
      (writeSlot b d (formatFatName filename),
        firstCluster b d (writeSlot b d (formatFatName filename))) d :=
    h.searchSectors (formatFatName filename) (fun _ hsec => List.mem_range.mp hsec) none
  rw [LispDos.fat16WriteFile, fat16WriteRun, Driven.fat16WriteFile]
  cases hslot : writeSlot b d (formatFatName filename) with
  | existing sec idx =>
      rw [hslot] at hsearch
      obtain ⟨hidx, ⟨hk, hmatches, -⟩, -⟩ := (writeSlot_existing_iff b d _ sec idx).mp hslot
      have hentry : slot b d (16 * sec + idx) = dirEntryAt (d (b.rootDirSector + sec)) idx := by
        rw [slot, show (16 * sec + idx) / 16 = sec by omega, show (16 * sec + idx) % 16 = idx by omega]
      have hin := hd.files _ hk hmatches.1
      rw [hentry] at hin
      obtain ⟨hfree, hd', -⟩ := h.freeChain hd hin
      have hsec : sec < b.rootDirSize := by
        rw [slots] at hk
        omega
      obtain ⟨hwrite, hwritten⟩ := h.writeAtSlot buffer size.toNat hd' filename hsize hsec hidx
      exact ⟨hsearch.bind (hfree.bind (hwrite.bind (.pure _ _))), hwritten⟩
  | free target =>
      rw [hslot] at hsearch
      cases target with
      | none => exact ⟨hsearch.bind (.pure _ d), hd⟩
      | some found =>
          obtain ⟨sec, idx⟩ := found
          obtain ⟨k, hk, rfl, rfl, -⟩ := writeSlot_free_some hslot
          have hsec : k / 16 < b.rootDirSize := by
            rw [slots] at hk
            omega
          obtain ⟨hwrite, hwritten⟩ := h.writeAtSlot buffer size.toNat hd filename hsize hsec
            (Nat.mod_lt k (by decide))
          exact ⟨hsearch.bind (hwrite.bind (.pure _ _)), hwritten⟩

end Fits

/-! ## Runs -/

/-- The call over the driver. -/
def request (b : Bpb) : Request → Client Answer
  | .write filename buffer size => .wrote <$> fat16WriteFile b filename buffer size
  | .delete filename => .deleted <$> fat16DeleteFile b filename
  | .size filename => .size <$> fat16GetFileSize b filename
  | .read filename => .read <$> fat16ReadFile b filename
  | .dir => .printed <$> fat16Dir b

def requestAll (b : Bpb) : List Request → Client (List Answer)
  | [] => return []
  | r :: rs => do
      let answer ← request b r
      let answers ← requestAll b rs
      return answer :: answers

theorem Performs.map {p : Client α} (h : Performs capacity p d a d') (f : α → β) :
    Performs capacity (f <$> p) d (f a) d' := h.bind (.pure (f a) d')

namespace Fits

variable (h : Fits b capacity)
include h

theorem request (hd : Enclosed b d) (r : Request) :
    Performs capacity (request b r) d (r.perform b d).1 (r.perform b d).2 ∧
      Enclosed b (r.perform b d).2 := by
  cases r with
  | write filename buffer size =>
      obtain ⟨hwrite, hd'⟩ := h.writeFile buffer hd filename size
      exact ⟨hwrite.map _, hd'⟩
  | delete filename =>
      obtain ⟨hdelete, hd'⟩ := h.deleteFile hd filename
      exact ⟨hdelete.map _, hd'⟩
  | size filename => exact ⟨(h.getFileSize filename).map _, hd⟩
  | read filename => exact ⟨(h.readFile hd filename).map _, hd⟩
  | dir => exact ⟨h.dir.map _, hd⟩

theorem requestAll (hd : Enclosed b d) (requests : List Request) :
    Performs capacity (requestAll b requests) d (performAll b d requests).1
      (performAll b d requests).2 := by
  induction requests generalizing d with
  | nil => exact .pure [] d
  | cons r rs ih =>
      obtain ⟨hcall, hd'⟩ := h.request hd r
      exact hcall.bind ((ih hd').bind (.pure _ _))

end Fits

theorem Enclosed.of_formatted (h : Formatted b d) : Enclosed b d where
  links c hc hlast := by
    rw [h.free c hc hlast]
    exact inVolume_zero b
  files k hk hlive := absurd hlive (h.unused k hk)

def someRequests : List Request :=
  [.write [0x41] (fun _ => 7) 2, .write [0x42] (fun _ => 8) 1, .read [0x41]]

end LispDos.Driven
