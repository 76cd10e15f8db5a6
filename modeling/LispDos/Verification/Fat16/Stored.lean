import LispDos.Verification.Fat16.Rollback

/-! # What is stored after a write

A write that comes to its end leaves the file to be read. One that runs out of clusters has
already freed the old file, whose entry stays; what is then read under the name is the first
cluster of the old chain at most. -/

namespace LispDos.Fat16

open Foundation

variable {b : Bpb} {d r : Disk} {chain : ℕ → List ℕ} {name filename : List UInt8}
  {buffer : ℕ → UInt8} {size k : ℕ} {cs : List ℕ}

/-- There is a file of that name, and reading it yields exactly the `size` bytes of the
buffer. -/
structure Stored (b : Bpb) (d : Disk) (filename : List UInt8) (buffer : ℕ → UInt8) (size : ℕ) :
    Prop where
  found : (lookup b d (formatFatName filename)).isSome = true
  read : ∃ stores, fat16ReadFile b d filename = some ((size : ℤ), stores) ∧
    ∀ (out : ℕ → UInt8) (i : ℕ),
      applyStores out stores i = if i < size then buffer i else out i

/-- The clusters that a write to the name frees: those of the entry of that name. -/
inductive Replaced (b : Bpb) (d : Disk) (name : List UInt8) : List ℕ → Prop where
  | entry (k : ℕ) (hk : k < slots b) (hm : Matches name (slot b d k)) (l : List ℕ) (e : ℕ)
      (hchain : ClusterChain b d (slot b d k).firstCluster l e) : Replaced b d name l
  | new (hno : ∀ j < slots b, ¬ Matches name (slot b d j)) : Replaced b d name []

/-- The root directory has an entry of the name or room for a new one. -/
def HasSlot (b : Bpb) (d : Disk) (name : List UInt8) : Prop :=
  ∃ j < slots b, Matches name (slot b d j) ∨ ¬ Live (slot b d j)

theorem Target.hasSlot (h : Target b d chain name k cs) : HasSlot b d name := by
  cases h with
  | existing hk hm => exact ⟨k, hk, .inl hm⟩
  | fresh hk hfree _ _ => exact ⟨k, hk, .inr hfree⟩

theorem Target.replaced {l : List ℕ} (target : Target b d chain name k cs) (h : Sound b d chain)
    (hl : Replaced b d name l) : l = cs := by
  cases hl with
  | entry j hj hm _ e hchain => exact (target.eq_of_existing h hj hm hchain).2.symm
  | new hno => exact (target.eq_nil_of_new hno).1.symm

theorem Stored.exists_isFile (h : Stored b d filename buffer size) :
    ∃ j < slots b, IsFile (formatFatName filename) (slot b d j) := by
  obtain ⟨j, hj⟩ := Option.isSome_iff_exists.mp h.found
  obtain ⟨hlt, hfile, _⟩ := (lookup_eq_some_iff b d _ j).mp hj
  exact ⟨j, hlt, hfile⟩

/-- The file has the size of what is stored. -/
theorem Stored.fileSize (h : Stored b d filename buffer size) (hsize : size < 2 ^ 31)
    (hlook : lookup b d (formatFatName filename) = some k) : (slot b d k).fileSize = size := by
  obtain ⟨stores, hread, _⟩ := h.read
  have hresult := fat16ReadFile_result hread
  have hlt := fat16GetFileSize_lt b d filename
  rw [fat16GetFileSize_eq, hlook, Option.elim_some] at hresult hlt
  unfold toInt32 at hresult
  have hbmod := Int.bmod_add_bdiv ((slot b d k).fileSize : ℤ) (2 ^ 32)
  omega

/-! ## Running out of clusters -/

theorem need_le_one_iff (hg : Geometry b) : need b size ≤ 1 ↔ size ≤ clusterBytes b := by
  have hiff := lt_need_iff hg size 1
  omega

section Failed

variable {l : List ℕ}

/-- The chain of a freed file is its first cluster. -/
theorem chain_of_freed {c e : ℕ} {t : List ℕ} (hchain : ClusterChain b d c (c :: t) e)
    (hzero : fat16GetFatEntry b r c = 0) : ClusterChain b r c [c] 0 := by
  refine .step (hchain.go_of_mem c (by simp)) ?_
  rw [hzero]
  exact .stop (by simp [IsCluster])

/-- When there is no cluster to write to, a file of one cluster is read as before. -/
theorem read_of_no_cluster (h : Layout b d chain) (hk : k < slots b)
    (hm : Matches (formatFatName filename) (slot b d k))
    (hnone : available b d (chain k) = ∅) (hl : ∀ c ∈ l, c ∈ available b d (chain k))
    (entry : ∀ x < 256 * b.tableSize,
      fat16GetFatEntry b r x = if x ∈ chain k then 0 else fat16GetFatEntry b d x)
    (outside : ∀ s, ¬ InFat b s → (∀ c ∈ l, ¬ InCluster b c s) → r s = d s)
    (hsmall : (slot b d k).fileSize ≤ clusterBytes b) :
    fat16ReadFile b r filename = fat16ReadFile b d filename := by
  have hslot := fun j (hj : j < slots b) => slot_of_diskFull outside hj
  have hlook : lookup b d (formatFatName filename) = some k :=
    h.dir.lookup_eq_some_iff.mpr ⟨hk, hm.1, hm.2, h.plain k hk hm.1⟩
  have houtside : ∀ s, ¬ InFat b s → r s = d s := by
    intro s hs
    apply outside s hs
    intro c hc
    have hmem := hl c hc
    simp [hnone] at hmem
  obtain ⟨e, hchain, _⟩ := h.chains k hk hm.1
  have hread : readChain b r (slot b d k).firstCluster (slot b d k).fileSize =
      readChain b d (slot b d k).firstCluster (slot b d k).fileSize := by
    cases hlist : chain k with
    | nil =>
        rw [hlist] at hchain
        exact readChain_congr hchain (by simp) (by simp)
    | cons c t =>
        have hc : c ∈ chain k := by
          rw [hlist]
          simp
        have hzero : fat16GetFatEntry b r c = 0 := by
          rw [entry c (h.lt_entries hk hm.1 hc), if_pos hc]
        rw [hlist] at hchain
        have hfirst := hchain.head_eq
        rw [hfirst] at hchain ⊢
        rw [readChain_eq h.geometry hchain (hsmall.trans (Nat.le_mul_of_pos_right _ (by simp))),
          readChain_eq h.geometry (chain_of_freed hchain hzero) (by simpa using hsmall)]
        refine congrArg some (List.map_congr_left ?_)
        intro y hy
        have hy := List.mem_range.mp hy
        have hsector : InCluster b c (b.clusterSector c + y / 512) := by
          refine ⟨Nat.le_add_right _ _, ?_⟩
          have : y / 512 < b.spc := by
            rw [Nat.div_lt_iff_lt_mul (by decide), Nat.mul_comm]
            exact hy.trans_le hsmall
          omega
        rw [fileByte_cons_of_lt _ _ (by omega), fileByte_cons_of_lt _ _ (by omega),
          houtside _ hsector.not_inFat]
  rw [fat16ReadFile_eq, fat16ReadFile_eq, lookup_congr hslot h.dir, hlook, Option.elim_some,
    Option.elim_some, hslot k hk, hread]

/-- More than one cluster of a freed file is not read. -/
theorem Stored.size_le (h : Layout b d chain) (hk : k < slots b)
    (hm : Matches (formatFatName filename) (slot b d k))
    (entry : ∀ x < 256 * b.tableSize,
      fat16GetFatEntry b r x = if x ∈ chain k then 0 else fat16GetFatEntry b d x)
    (hslot : ∀ j < slots b, slot b r j = slot b d j)
    (hstored : Stored b r filename buffer size) (hsize : size < 2 ^ 31) :
    size ≤ clusterBytes b := by
  have hlook : lookup b r (formatFatName filename) = some k := by
    rw [lookup_congr hslot h.dir]
    exact h.dir.lookup_eq_some_iff.mpr ⟨hk, hm.1, hm.2, h.plain k hk hm.1⟩
  have hfile := hstored.fileSize hsize hlook
  rw [hslot k hk] at hfile
  obtain ⟨e, hchain, _⟩ := h.chains k hk hm.1
  have henough := h.enough k hk hm.1
  cases hlist : chain k with
  | nil =>
      rw [hlist, List.length_nil] at henough
      omega
  | cons c t =>
      have hc : c ∈ chain k := by
        rw [hlist]
        simp
      have hzero : fat16GetFatEntry b r c = 0 := by
        rw [entry c (h.lt_entries hk hm.1 hc), if_pos hc]
      rw [hlist] at hchain
      have hfirst := hchain.head_eq
      rw [hfirst] at hchain
      by_contra hlt
      -- the byte behind the first cluster would not be stored
      obtain ⟨stores, hread, hbytes⟩ := hstored.read
      rw [fat16ReadFile_eq, hlook, Option.elim_some, hslot k hk, hfirst] at hread
      obtain ⟨stores', hloop, heq⟩ := Option.map_eq_some_iff.mp hread
      obtain ⟨_, rfl⟩ := Prod.mk.inj heq
      have hbound := readLoop_stores_chain (chain_of_freed hchain hzero) (Nat.zero_le _) hloop
      have hkeep : applyStores (fun _ => buffer (clusterBytes b) + 1) stores' (clusterBytes b) =
          buffer (clusterBytes b) + 1 := by
        apply applyStores_of_forall_ne
        intro s hs
        have hlt' := hbound s hs
        rw [List.length_singleton] at hlt'
        omega
      rw [hbytes, if_pos (by omega)] at hkeep
      simp at hkeep

end Failed

/-! ## All writes -/

theorem not_stored_of_new
    (hno : ∀ j < slots b, ¬ Matches (formatFatName filename) (slot b d j)) :
    ¬ Stored b d filename buffer size := by
  intro hs
  obtain ⟨j, hj, hfile⟩ := hs.exists_isFile
  exact hno j hj ⟨hfile.1, hfile.2.1⟩

theorem headD_formatFatName_deleted (h : filename.head? = some 0xE5) :
    (formatFatName filename).headD 0 = 0xE5 := by
  cases filename with
  | nil => simp at h
  | cons c cs =>
      obtain rfl : c = 0xE5 := by simpa using h
      have hupper : fatUpper 0xE5 = 0xE5 := by decide
      simp [formatFatName, formatChars, hupper, padName, List.replicate_succ]

/-- A name that begins with the deleted mark is never found. -/
theorem not_stored_of_deleted (h : filename.head? = some 0xE5) :
    ¬ Stored b d filename buffer size := by
  intro hs
  have hname := headD_formatFatName_deleted h
  obtain ⟨j, hj, hlive, heq, _⟩ := hs.exists_isFile
  apply hlive.2
  rw [DirEntry.mark, heq, hname]

/-- What a write leaves of the file, in terms of the volume before it. -/
theorem stored_iff (h : Layout b d chain) (hname : filename.head? ≠ some 0xE5)
    (hcs : Replaced b d (formatFatName filename) cs) (buffer : ℕ → UInt8) (len : UInt32)
    (hlen : len.toNat < 2 ^ 31) :
    Stored b (fat16WriteRun b d filename buffer len).2 filename buffer len.toNat ↔
      (HasSlot b d (formatFatName filename) ∧ need b len.toNat ≤ (available b d cs).card) ∨
        (available b d cs = ∅ ∧ len.toNat ≤ clusterBytes b ∧
          Stored b d filename buffer len.toNat) := by
  have hw := fat16WriteRun_cases h.toSound filename buffer len
  generalize fat16WriteRun b d filename buffer len = w at hw
  have hdir := h.dir
  cases hw with
  | rootFull hlive hno =>
      have hnot : ¬ Stored b d filename buffer len.toNat := not_stored_of_new hno
      have hslot : ¬ HasSlot b d (formatFatName filename) := by
        rintro ⟨j, hj, hm | hfree⟩
        · exact hno j hj hm
        · exact hfree (hlive j hj)
      simp [hnot, hslot]
  | diskFull k cs' l r target hcard hl entry outside mirror =>
      obtain rfl := target.replaced h.toSound hcs
      have hslot := fun j (hj : j < slots b) => slot_of_diskFull outside hj
      have hlack : ¬ (HasSlot b d (formatFatName filename) ∧
          need b len.toNat ≤ (available b d cs).card) := by omega
      rw [or_iff_right hlack]
      cases target with
      | fresh hk hfree hlive hno =>
          have hbefore : ¬ Stored b d filename buffer len.toNat := not_stored_of_new hno
          have hafter : ¬ Stored b r filename buffer len.toNat := by
            apply not_stored_of_new
            intro j hj
            rw [hslot j hj]
            exact hno j hj
          simp [hbefore, hafter]
      | existing hk hm =>
          have hlook : lookup b d (formatFatName filename) = some k :=
            hdir.lookup_eq_some_iff.mpr ⟨hk, hm.1, hm.2, h.plain k hk hm.1⟩
          have hlook' : lookup b r (formatFatName filename) = some k := by
            rw [lookup_congr hslot hdir, hlook]
          constructor
          · intro hs
            have hle := hs.size_le h hk hm entry hslot hlen
            have hone := (need_le_one_iff h.geometry).mpr hle
            have hnone : available b d (chain k) = ∅ := Finset.card_eq_zero.mp (by omega)
            have hfile := hs.fileSize hlen hlook'
            rw [hslot k hk] at hfile
            have hread := read_of_no_cluster h hk hm hnone hl entry outside (by omega)
            refine ⟨hnone, hle, by rw [hlook]; rfl, ?_⟩
            rw [← hread]
            exact hs.read
          · rintro ⟨hnone, hle, hs⟩
            have hfile := hs.fileSize hlen hlook
            have hread := read_of_no_cluster h hk hm hnone hl entry outside (by omega)
            refine ⟨by rw [hlook']; rfl, ?_⟩
            rw [hread]
            exact hs.read
  | done k cs' l r target hlength hcard hl new entry outside mirror stored others data =>
      obtain rfl := target.replaced h.toSound hcs
      have hback := (WriteCase.done k cs l r target hlength hcard hl new entry outside mirror
        stored others data).read_back h.toSound hname
      have hfile : IsFile (formatFatName filename) (slot b r k) := by
        rw [stored]
        exact ⟨live_newEntry hname _ _, rfl, not_isDir_newEntry _ _ _⟩
      have hlook := (target.dirOk hdir (headD_formatFatName_ne_zero filename) hfile.2.1
        others).lookup_eq_some_iff.mpr ⟨target.lt, hfile⟩
      refine iff_of_true ?_ (.inl ⟨target.hasSlot, hcard⟩)
      refine ⟨by rw [hlook]; rfl, _, ?_, fun out i => applyStores_range out buffer len.toNat i⟩
      rw [hback.2, toInt32_of_lt hlen]

end LispDos.Fat16
