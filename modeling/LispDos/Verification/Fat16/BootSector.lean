import LispDos.Foundation.Loop
import LispDos.Verification.Fat16.Consistency
import Mathlib.Logic.Relation

/-! # What an accepted boot sector leads to

`fat16_init` tests the signature only. The divisors and the bound of the allocator come from
fields that nobody tests, and the first data sector is computed with another rounding than the
number of the clusters. -/

namespace LispDos.Fat16

open Foundation

variable {b : Bpb} {d : Disk} {buffer : ℕ → UInt8} {size : ℕ} {c : ℕ}

/-! ## Calls of the allocator -/

/-- The variables of the loop of `fat16_write_file`. -/
structure WriteState where
  disk : Disk
  first : ℕ
  current : ℕ
  written : ℕ

/-- The guard of the loop. -/
def WriteState.Continues (size : ℕ) (s : WriteState) : Prop :=
  s.written < size ∨ (size = 0 ∧ s.first = 0)

instance (size : ℕ) (s : WriteState) : Decidable (s.Continues size) :=
  inferInstanceAs (Decidable (s.written < size ∨ (size = 0 ∧ s.first = 0)))

/-- The round that has got the cluster `newC`. -/
def linkRound (b : Bpb) (buffer : ℕ → UInt8) (size : ℕ) (s : WriteState) (newC : ℕ) (d : Disk) :
    LoopStep WriteState (WriteExit × Disk × ℕ) :=
  let d := if s.first = 0 then d else fat16SetFatEntry b d s.current newC
  let first := if s.first = 0 then newC else s.first
  let out := writeSectors buffer size b.spc (b.clusterSector newC) d s.written
  if size = 0 then .leave (.done, out.1, first) else .next ⟨out.1, first, newC, out.2⟩

/-- One round of the loop of `fat16_write_file`. -/
def writeRound (b : Bpb) (buffer : ℕ → UInt8) (size : ℕ) (s : WriteState) :
    LoopStep WriteState (WriteExit × Disk × ℕ) :=
  if s.Continues size then
    match fat16AllocCluster b s.disk with
    | none => .leave (.divideError, s.disk, s.first)
    | some (newC, d) =>
        if newC = 0 then .leave (.diskFull, if s.first ≠ 0 then freeChain b d s.first else d, s.first)
        else linkRound b buffer size s newC d
  else .leave (.done, s.disk, s.first)

section Rounds

variable {s : WriteState} {newC : ℕ} {d' : Disk}

theorem writeRound_stop (h : ¬ s.Continues size) :
    writeRound b buffer size s = .leave (.done, s.disk, s.first) :=
  if_neg h

theorem writeRound_none (buffer : ℕ → UInt8) (h : s.Continues size)
    (halloc : fat16AllocCluster b s.disk = none) :
    writeRound b buffer size s = .leave (.divideError, s.disk, s.first) := by
  rw [writeRound, if_pos h, halloc]

theorem writeRound_full (h : s.Continues size)
    (halloc : fat16AllocCluster b s.disk = some (0, d')) :
    writeRound b buffer size s =
      .leave (.diskFull, if s.first ≠ 0 then freeChain b d' s.first else d', s.first) := by
  rw [writeRound, if_pos h, halloc]
  exact if_pos rfl

theorem writeRound_link (buffer : ℕ → UInt8) (h : s.Continues size)
    (halloc : fat16AllocCluster b s.disk = some (newC, d')) (hne : newC ≠ 0) :
    writeRound b buffer size s = linkRound b buffer size s newC d' := by
  rw [writeRound, if_pos h, halloc]
  exact if_neg hne

end Rounds

/-- `writeLoop` is what the loop returns. -/
theorem writeRound_returns (b : Bpb) (buffer : ℕ → UInt8) (size : ℕ) (d : Disk)
    (first current written : ℕ) :
    LoopReturns (writeRound b buffer size) ⟨d, first, current, written⟩
      (writeLoop b buffer size d first current written) := by
  induction hm : size - written using Nat.strongRecOn generalizing d first current written with
  | _ m ih =>
      rw [writeLoop]
      by_cases hguard : written < size ∨ (size = 0 ∧ first = 0)
      · have hcont : WriteState.Continues size ⟨d, first, current, written⟩ := hguard
        rw [if_pos hguard]
        split
        · rename_i halloc
          exact .leave (writeRound_none buffer hcont halloc)
        · rename_i newC d' halloc
          by_cases hzero : newC = 0
          · subst hzero
            rw [if_pos rfl]
            exact .leave (writeRound_full hcont halloc)
          · rw [if_neg hzero]
            have hround := writeRound_link buffer hcont halloc hzero
            by_cases hsize : size = 0
            · refine .leave (hround.trans ?_)
              simp only [linkRound, hsize, if_true]
            · have hlt : written < size := by omega
              have hspc := spc_pos_of_alloc halloc
              rw [if_neg hsize]
              refine .next (hround.trans (if_neg hsize)) (ih _ ?_ _ _ _ _ rfl)
              rw [writeSectors_snd _ _ _ _ _ _ hlt.le]
              omega
      · rw [if_neg hguard]
        exact .leave (writeRound_stop hguard)

/-- The disk on which the loop of a write begins, if the write finds a slot. -/
def writeStart (b : Bpb) (d : Disk) (filename : List UInt8) : Option Disk :=
  match writeSlot b d (formatFatName filename) with
  | .existing sec idx =>
      some (freeChain b d (dirEntryAt (ataReadSector d (b.rootDirSector + sec)) idx).firstCluster)
  | .free (some _) => some d
  | .free none => none

/-- During the write `fat16_alloc_cluster` is called on the disk `d'`. -/
def WriteAllocates (b : Bpb) (d : Disk) (filename : List UInt8) (buffer : ℕ → UInt8)
    (size : UInt32) (d' : Disk) : Prop :=
  ∃ start ∈ writeStart b d filename, ∃ s : WriteState,
    Relation.ReflTransGen (fun s t => writeRound b buffer size.toNat s = .next t)
      ⟨start, 0, 0, 0⟩ s ∧ s.Continues size.toNat ∧ s.disk = d'

theorem fat16WriteRun_of_start_none {filename : List UInt8} {len : UInt32}
    (h : writeStart b d filename = none) :
    fat16WriteRun b d filename buffer len = (.rootFull, d) := by
  simp only [writeStart] at h
  rw [fat16WriteRun]
  cases hslot : writeSlot b d (formatFatName filename) with
  | existing sec idx =>
      rw [hslot] at h
      cases h
  | free slot =>
      cases slot with
      | none => rfl
      | some p =>
          rw [hslot] at h
          cases h

theorem fat16WriteRun_of_start (buffer : ℕ → UInt8) (len : UInt32) {filename : List UInt8}
    {start : Disk} (h : writeStart b d filename = some start) :
    ∃ sec idx, fat16WriteRun b d filename buffer len =
      writeAtSlot b start (formatFatName filename) buffer len.toNat sec idx := by
  simp only [writeStart] at h
  simp only [fat16WriteRun]
  cases hslot : writeSlot b d (formatFatName filename) with
  | existing sec idx =>
      rw [hslot] at h
      obtain rfl := Option.some_inj.mp h
      exact ⟨sec, idx, rfl⟩
  | free slot =>
      cases slot with
      | none =>
          rw [hslot] at h
          cases h
      | some p =>
          rw [hslot] at h
          obtain rfl := Option.some_inj.mp h
          exact ⟨p.1, p.2, rfl⟩

/-- A write divides by zero exactly if its loop does. -/
theorem writeAtSlot_exit (start : Disk) (name : List UInt8) (sec idx : ℕ) :
    (writeAtSlot b start name buffer size sec idx).1 = (writeLoop b buffer size start 0 0 0).1 := by
  rw [writeAtSlot]
  cases hloop : writeLoop b buffer size start 0 0 0 with
  | mk exit rest =>
      obtain ⟨r, first⟩ := rest
      cases exit <;> rfl

/-! ## Runs -/

/-- A call of one of the three functions that work on a file. -/
inductive FileCall where
  | write (filename : List UInt8) (buffer : ℕ → UInt8) (size : UInt32)
  | read (filename : List UInt8)
  | delete (filename : List UInt8)

/-- The disk after a call; reading changes nothing. -/
def FileCall.apply (b : Bpb) (d : Disk) : FileCall → Disk
  | .write filename buffer size => (fat16WriteFile b d filename buffer size).2
  | .read _ => d
  | .delete filename => (fat16DeleteFile b d filename).2

def runFileCalls (b : Bpb) (d : Disk) (calls : List FileCall) : Disk :=
  calls.foldl (FileCall.apply b) d

/-- The sectors of the cluster lie behind the root directory and in the volume. -/
structure InVolume (b : Bpb) (c : ℕ) : Prop where
  afterRoot : b.rootDirSector + (b.rootEntries * 32 + 511) / 512 ≤ b.clusterSector c
  inside : b.clusterSector c + b.spc ≤ totalSectors b

/-- A write divides nothing by zero, and gets clusters of the volume only. -/
structure SafeWrite (b : Bpb) (d : Disk) (filename : List UInt8) (buffer : ℕ → UInt8)
    (size : UInt32) : Prop where
  division : (fat16WriteRun b d filename buffer size).1 ≠ .divideError
  clusters : ∀ d' c r, WriteAllocates b d filename buffer size d' →
    fat16AllocCluster b d' = some (c, r) → c ≠ 0 → InVolume b c

/-- Every write of the run is safe. The other calls neither divide nor allocate. -/
def SafeRun (b : Bpb) (d : Disk) (calls : List FileCall) : Prop :=
  ∀ before filename buffer size after,
    calls = before ++ FileCall.write filename buffer size :: after →
      SafeWrite b (runFileCalls b d before) filename buffer size

/-! ## Boot sectors -/

/-- Both divisors are positive, and the scan of the allocator is empty, or the root directory
fills its sectors and the last cluster of the scan lies in the volume. -/
structure SafeFields (b : Bpb) : Prop where
  bytes : b.bytesPerSector ≠ 0
  spc : b.sectorsPerCluster ≠ 0
  clusters : ∀ n ∈ b.totalClusters, n ≤ 2 ∨
    (16 ∣ b.rootEntries ∧ b.clusterSector (min n 0xFFF0 - 1) + b.spc ≤ totalSectors b)

theorem exists_totalClusters (hbytes : b.bytesPerSector ≠ 0) (hspc : b.sectorsPerCluster ≠ 0) :
    ∃ n, b.totalClusters = some n := by
  simp only [Bpb.totalClusters]
  rw [if_neg hbytes, if_neg hspc]
  exact ⟨_, rfl⟩

theorem totalClusters_eq_none (h : b.bytesPerSector = 0 ∨ b.sectorsPerCluster = 0) :
    b.totalClusters = none := by
  simp only [Bpb.totalClusters]
  rcases h with h | h
  · rw [if_pos h]
  · rw [if_pos h, ite_self]

/-- The allocator returns a cluster of its scan. -/
theorem fat16AllocCluster_scan {r : Disk} (h : fat16AllocCluster b d = some (c, r)) (hc : c ≠ 0) :
    ∃ n, b.totalClusters = some n ∧ 2 ≤ c ∧ c < min n 0xFFF0 := by
  simp only [fat16AllocCluster, Option.map_eq_some_iff] at h
  obtain ⟨n, hn, hscan⟩ := h
  refine ⟨n, hn, ?_⟩
  split at hscan
  · rename_i i hfind
    obtain ⟨rfl, _⟩ := Prod.mk.inj hscan
    have hmem := List.mem_range'_1.mp (List.mem_of_find?_eq_some hfind)
    omega
  · obtain ⟨rfl, _⟩ := Prod.mk.inj hscan
    exact (hc rfl).elim

theorem clusterSector_mono {c' : ℕ} (h : c ≤ c') : b.clusterSector c ≤ b.clusterSector c' :=
  Nat.add_le_add_left (Nat.mul_le_mul_right _ (Nat.sub_le_sub_right h 2)) _

/-- With safe fields every cluster of the scan lies in the volume. -/
theorem SafeFields.inVolume (h : SafeFields b) {n : ℕ} (hn : b.totalClusters = some n)
    (htwo : 2 ≤ c) (hlt : c < min n 0xFFF0) : InVolume b c := by
  obtain ⟨⟨m, hm⟩, hlast⟩ := (h.clusters n hn).resolve_left (by omega)
  constructor
  · have hroot : (b.rootEntries * 32 + 511) / 512 = b.rootDirSize := by
      unfold Bpb.rootDirSize
      omega
    rw [hroot]
    exact dataSector_le_clusterSector b c
  · have hmono := clusterSector_mono (b := b) (show c ≤ min n 0xFFF0 - 1 by omega)
    omega

theorem SafeFields.alloc_ne_none (h : SafeFields b) (d : Disk) : fat16AllocCluster b d ≠ none := by
  obtain ⟨n, hn⟩ := exists_totalClusters h.bytes h.spc
  simp [fat16AllocCluster, hn]

/-- The loop leaves with a division by zero only from the allocator. -/
theorem SafeFields.loop_exit (h : SafeFields b) (buffer : ℕ → UInt8) (size : ℕ) (d : Disk) :
    (writeLoop b buffer size d 0 0 0).1 ≠ .divideError := by
  have hloop := writeRound_returns b buffer size d 0 0 0
  refine hloop.of_invariant (fun _ => True) (fun r => r.1 ≠ .divideError) trivial
    (fun _ _ _ _ => trivial) ?_
  rintro s r - hr
  by_cases hcont : s.Continues size
  · cases halloc : fat16AllocCluster b s.disk with
    | none => exact (h.alloc_ne_none s.disk halloc).elim
    | some res =>
        obtain ⟨newC, d'⟩ := res
        by_cases hzero : newC = 0
        · subst hzero
          rw [writeRound_full hcont halloc] at hr
          rw [← LoopStep.leave.inj hr]
          simp
        · rw [writeRound_link buffer hcont halloc hzero] at hr
          simp only [linkRound] at hr
          split at hr
          · rw [← LoopStep.leave.inj hr]
            simp
          · cases hr
  · rw [writeRound_stop hcont] at hr
    rw [← LoopStep.leave.inj hr]
    simp

theorem SafeFields.safeWrite (h : SafeFields b) (d : Disk) (filename : List UInt8)
    (buffer : ℕ → UInt8) (size : UInt32) : SafeWrite b d filename buffer size := by
  constructor
  · cases hstart : writeStart b d filename with
    | none =>
        rw [fat16WriteRun_of_start_none hstart]
        simp
    | some start =>
        obtain ⟨sec, idx, hrun⟩ := fat16WriteRun_of_start buffer size hstart
        rw [hrun, writeAtSlot_exit]
        exact h.loop_exit buffer size.toNat start
  · intro d' c r _ halloc hc
    obtain ⟨n, hn, htwo, hlt⟩ := fat16AllocCluster_scan halloc hc
    exact h.inVolume hn htwo hlt

/-- Without a sector of the root directory nothing is written. -/
theorem writeStart_of_no_root (h : b.rootEntries < 16) (d : Disk) (filename : List UInt8) :
    writeStart b d filename = none := by
  have hroot : b.rootDirSize = 0 := by
    unfold Bpb.rootDirSize
    omega
  simp [writeStart, writeSlot, hroot, searchSectors]

theorem safeWrite_of_no_root (h : b.rootEntries < 16) (d : Disk) (filename : List UInt8)
    (buffer : ℕ → UInt8) (size : UInt32) : SafeWrite b d filename buffer size := by
  have hstart := writeStart_of_no_root h d filename
  constructor
  · rw [fat16WriteRun_of_start_none hstart]
    simp
  · rintro d' c r ⟨start, hmem, _⟩
    simp [hstart] at hmem

theorem SafeFields.run_safe (h : b.rootEntries < 16 ∨ SafeFields b) (d : Disk)
    (calls : List FileCall) : SafeRun b d calls := by
  intro before filename buffer size after _
  rcases h with hroot | hfields
  · exact safeWrite_of_no_root hroot _ filename buffer size
  · exact hfields.safeWrite _ filename buffer size

/-! ## A disk that offers one cluster -/

/-- A sector of deleted entries. -/
def deletedSector : Sector := fun _ => 0xE5

/-- Every entry of the table but one is occupied, and every slot of the directory is free. -/
def offerDisk (boot : Sector) (b : Bpb) (c : ℕ) : Disk := fun s =>
  if s = 0 then boot
  else if s = b.reserved + c * 2 / 512 then deletedSector.setLe16 (c * 2 % 512) 0
  else deletedSector

section Offer

variable {boot : Sector}

theorem byte_deletedSector {i : ℕ} (hi : i < 512) : deletedSector.byte i = 0xE5 := by
  simp [Sector.byte, deletedSector, hi]

theorem byte_offerDisk (boot : Sector) (b : Bpb) (c : ℕ) {s i : ℕ} (hs : s ≠ 0) (hi : i < 512) :
    (offerDisk boot b c s).byte i = 0 ∨ (offerDisk boot b c s).byte i = 0xE5 := by
  rw [offerDisk, if_neg hs]
  split
  · rw [Sector.byte_setLe16 _ (by omega), byte_deletedSector hi]
    split
    · exact .inl rfl
    · split
      · exact .inl rfl
      · exact .inr rfl
  · exact .inr (byte_deletedSector hi)

theorem offerDisk_not_live (hboot : 1 ≤ b.reserved) (k : ℕ) :
    ¬ Live (slot b (offerDisk boot b c) k) := by
  have hs : b.rootDirSector + k / 16 ≠ 0 := by
    unfold Bpb.rootDirSector
    omega
  intro hlive
  rcases hlive with ⟨hzero, hdeleted⟩
  rw [slot, mark_dirEntryAt] at hzero hdeleted
  have hbyte := byte_offerDisk boot b c hs (show 32 * (k % 16) < 512 by omega)
  rcases hbyte with h | h
  · exact hzero h
  · exact hdeleted h

theorem offerDisk_entry (hboot : 1 ≤ b.reserved) (x : ℕ) :
    fat16GetFatEntry b (offerDisk boot b c) x = if x = c then 0 else 0xE5E5 := by
  have hfull : ∀ i, i + 1 < 512 → deletedSector.le16 i = 0xE5E5 := by
    intro i hi
    rw [Sector.le16, byte_deletedSector (by omega), byte_deletedSector hi]
    rfl
  simp only [fat16GetFatEntry, ataReadSector, offerDisk]
  rw [if_neg (by omega)]
  by_cases hx : x = c
  · rw [if_pos hx, hx, if_pos rfl, Sector.le16_setLe16_self _ (by omega) (by decide)]
  · rw [if_neg hx]
    split
    · rw [Sector.le16_setLe16_of_disjoint _ (by omega) (by omega), hfull _ (by omega)]
    · exact hfull _ (by omega)

theorem offerDisk_alloc (boot : Sector) (hboot : 1 ≤ b.reserved) {n : ℕ} (hn : b.totalClusters = some n)
    (htwo : 2 ≤ c) (hlt : c < min n 0xFFF0) :
    ∃ r, fat16AllocCluster b (offerDisk boot b c) = some (c, r) := by
  simp only [fat16AllocCluster, hn, Option.map_some, offerDisk_entry hboot]
  cases hfind : (List.range' 2 (min n 0xFFF0 - 2)).find?
      fun i => decide ((if i = c then 0 else 0xE5E5) = 0) with
  | none =>
      have hmem := List.find?_eq_none.mp hfind c (List.mem_range'_1.mpr (by omega))
      simp at hmem
  | some i =>
      have hfree := List.find?_some hfind
      by_cases hi : i = c
      · subst hi
        exact ⟨_, rfl⟩
      · simp [hi] at hfree

end Offer

/-- A write takes a free slot if it finds no live one. -/
theorem writeStart_of_no_live (hroot : 16 ≤ b.rootEntries) (hfree : ∀ k, ¬ Live (slot b d k))
    (filename : List UInt8) : writeStart b d filename = some d := by
  have hpos : 0 < slots b := by
    unfold slots Bpb.rootDirSize
    omega
  rw [writeStart]
  cases hslot : writeSlot b d (formatFatName filename) with
  | existing sec i =>
      obtain ⟨_, hv, _⟩ := (writeSlot_existing_iff b d _ sec i).mp hslot
      exact (hfree _ hv.2.1.1).elim
  | free slot =>
      cases slot with
      | none => exact (hfree 0 (writeSlot_free_none hslot 0 hpos)).elim
      | some p => rfl

theorem fat16Init_congr {d' : Disk} (h : d' 0 = d 0) : fat16Init d' = fat16Init d := by
  unfold fat16Init ataReadSector
  rw [h]

/-- A write that finds a slot and has a byte to store divides by zero if a divisor is zero. -/
theorem write_divides (h : b.bytesPerSector = 0 ∨ b.sectorsPerCluster = 0) {filename : List UInt8}
    {start : Disk} (hstart : writeStart b d filename = some start) (buffer : ℕ → UInt8)
    {len : UInt32} (hlen : 0 < len.toNat) :
    (fat16WriteRun b d filename buffer len).1 = .divideError := by
  have halloc : fat16AllocCluster b start = none := by
    simp [fat16AllocCluster, totalClusters_eq_none h]
  have hcont : WriteState.Continues len.toNat ⟨start, 0, 0, 0⟩ := .inl hlen
  obtain ⟨sec, idx, hrun⟩ := fat16WriteRun_of_start buffer len hstart
  have hloop := LoopReturns.leave (writeRound_none buffer hcont halloc)
  rw [hrun, writeAtSlot_exit, (writeRound_returns b _ _ _ 0 0 0).unique hloop]

/-- If every run is safe, so are the fields. -/
theorem safe_of_runs {d₀ : Disk} (hinit : fat16Init d₀ = .ok b) (hboot : 1 ≤ b.reserved)
    (h : ∀ d, fat16Init d = .ok b → ∀ calls, SafeRun b d calls) :
    b.rootEntries < 16 ∨ SafeFields b := by
  by_cases hroot : b.rootEntries < 16
  · exact .inl hroot
  have hoffer : ∀ c, fat16Init (offerDisk (d₀ 0) b c) = .ok b :=
    fun c => (fat16Init_congr (if_pos rfl)).trans hinit
  have hstart : ∀ c, writeStart b (offerDisk (d₀ 0) b c) [] = some (offerDisk (d₀ 0) b c) :=
    fun c => writeStart_of_no_live (by omega) (offerDisk_not_live hboot) []
  -- a write of one byte to the empty name
  have hsafe : ∀ c, SafeWrite b (offerDisk (d₀ 0) b c) [] (fun _ => 0) 1 :=
    fun c => h _ (hoffer c) [.write [] (fun _ => 0) 1] [] [] (fun _ => 0) 1 [] rfl
  have hone : 0 < (1 : UInt32).toNat := by decide
  have hcont : ∀ c, WriteState.Continues (1 : UInt32).toNat ⟨offerDisk (d₀ 0) b c, 0, 0, 0⟩ :=
    fun c => .inl hone
  have hcalls : ∀ c, WriteAllocates b (offerDisk (d₀ 0) b c) [] (fun _ => 0) 1
      (offerDisk (d₀ 0) b c) :=
    fun c => ⟨_, hstart c, _, .refl, hcont c, rfl⟩
  have hdivisors : ¬ (b.bytesPerSector = 0 ∨ b.sectorsPerCluster = 0) := by
    intro hz
    exact (hsafe 2).division (write_divides hz (hstart 2) _ hone)
  obtain ⟨hbytes, hspc⟩ := not_or.mp hdivisors
  refine .inr ⟨hbytes, hspc, fun n hn => ?_⟩
  by_cases hsmall : n ≤ 2
  · exact .inl hsmall
  have hvolume : ∀ c, 2 ≤ c → c < min n 0xFFF0 → InVolume b c := by
    intro c htwo hlt
    obtain ⟨r, halloc⟩ := offerDisk_alloc (d₀ 0) hboot hn htwo hlt
    exact (hsafe c).clusters _ c r (hcalls c) halloc (by omega)
  refine .inr ⟨?_, (hvolume (min n 0xFFF0 - 1) (by omega) (by omega)).inside⟩
  have hfirst := (hvolume 2 le_rfl (by omega)).afterRoot
  simp only [Bpb.clusterSector, Bpb.dataSector, Bpb.rootDirSize] at hfirst
  omega

/-- The runs on the disks with an accepted boot sector are safe if its fields are, and only then
if the boot sector is not itself taken for a table. -/
theorem boot_sector_safe_iff {d₀ : Disk} (hinit : fat16Init d₀ = .ok b) :
    ((b.rootEntries < 16 ∨ SafeFields b) →
      ∀ d, fat16Init d = .ok b → ∀ calls, SafeRun b d calls) ∧
    (1 ≤ b.reserved → (∀ d, fat16Init d = .ok b → ∀ calls, SafeRun b d calls) →
      b.rootEntries < 16 ∨ SafeFields b) :=
  ⟨fun h d _ calls => SafeFields.run_safe h d calls, fun hboot h => safe_of_runs hinit hboot h⟩

/-- The boot sector of the small volume. -/
def smallBootSector : Sector :=
  let s := ((Sector.zero.setLe16 11 512).setByte 13 1).setLe16 14 1
  let s := ((s.setByte 16 1).setLe16 17 16).setLe16 19 6
  (s.setLe16 22 1).setLe16 510 0xAA55

theorem fat16Init_smallBootSector :
    fat16Init (ataWriteSector blankDisk 0 smallBootSector) = .ok (smallBpb 6) := by
  rfl

theorem boot_sector_safe_iff_small :
    (((smallBpb 6).rootEntries < 16 ∨ SafeFields (smallBpb 6)) →
      ∀ d, fat16Init d = .ok (smallBpb 6) → ∀ calls, SafeRun (smallBpb 6) d calls) ∧
    (1 ≤ (smallBpb 6).reserved →
      (∀ d, fat16Init d = .ok (smallBpb 6) → ∀ calls, SafeRun (smallBpb 6) d calls) →
      (smallBpb 6).rootEntries < 16 ∨ SafeFields (smallBpb 6)) :=
  boot_sector_safe_iff fat16Init_smallBootSector

/-- A sector 0 with the signature, one reserved sector and sixteen root entries, and zeros
elsewhere. -/
def unformattedDisk : Disk := fun s =>
  if s = 0 then ((Sector.zero.setLe16 14 1).setLe16 17 16).setLe16 510 0xAA55 else Sector.zero

def unformattedBpb : Bpb where
  bytesPerSector := 0
  sectorsPerCluster := 0
  reservedSectorCount := 1
  tableCount := 0
  rootEntryCount := 16
  totalSectors16 := 0
  tableSize16 := 0
  totalSectors32 := 0

theorem fat16Init_unformattedDisk : fat16Init unformattedDisk = .ok unformattedBpb := by
  rfl

/-- The first write to the unformatted disk divides by zero. -/
theorem unformatted_write_divides :
    fat16Init unformattedDisk = .ok unformattedBpb ∧
      (fat16WriteRun unformattedBpb unformattedDisk [0x41] (fun _ => 7) 1).1 = .divideError ∧
      ¬ SafeRun unformattedBpb unformattedDisk [.write [0x41] (fun _ => 7) 1] := by
  have hfree : ∀ k, ¬ Live (slot unformattedBpb unformattedDisk k) := by
    intro k hl
    apply hl.1
    have hsec : unformattedBpb.rootDirSector + k / 16 ≠ 0 := by
      have : unformattedBpb.rootDirSector = 1 := by decide
      omega
    rw [slot, mark_dirEntryAt, unformattedDisk, if_neg hsec, Sector.byte_zero]
  have hstart := writeStart_of_no_live (by decide) hfree [0x41]
  have hexit := write_divides (.inl rfl) hstart (fun _ => 7) (show 0 < (1 : UInt32).toNat by decide)
  refine ⟨fat16Init_unformattedDisk, hexit, fun h => ?_⟩
  exact (h [] [0x41] (fun _ => 7) 1 [] rfl).division hexit

end LispDos.Fat16
