import LispDos.Foundation.FileStore
import LispDos.Verification.Fat16.Listing
import LispDos.Verification.Fat16.Runs

/-! # The volume as a file store

A volume on which only the driver has written is a file store: its slots are the entries of the
root directory, its keys the formatted names, and its blocks the clusters that the allocator
scans. -/

namespace LispDos.Fat16

open Foundation Console

variable {b : Bpb} {d d' : Disk} {chain chain' : ℕ → List ℕ} {name : List UInt8}
  {buffer : ℕ → UInt8} {size k : ℕ} {cs l : List ℕ}

/-- The contents of the file in slot `k`. -/
def contents (b : Bpb) (d : Disk) (chain : ℕ → List ℕ) (k : ℕ) : List UInt8 :=
  (List.range (slot b d k).fileSize).map (fileByte b d (chain k))

def fileAt (b : Bpb) (d : Disk) (chain : ℕ → List ℕ) (k : ℕ) : Option (File (List UInt8) UInt8) :=
  if Live (slot b d k) then some ⟨(slot b d k).name, contents b d chain k⟩ else none

/-- An entry as the driver writes it, with no more clusters than its file needs. -/
structure Tight (b : Bpb) (e : DirEntry) (l : List ℕ) : Prop where
  length : l.length = need b e.fileSize
  scanned : ∀ c ∈ l, c < clusters b
  archive : e.attributes = 0x20

/-- The volume holds the files of the store. -/
structure Holds (b : Bpb) (d : Disk) (chain : ℕ → List ℕ)
    (s : FileStore (List UInt8) UInt8 (slots b)) : Prop extends Layout b d chain where
  file : ∀ k : Fin (slots b), s.file k = fileAt b d chain k
  tight : ∀ k < slots b, Live (slot b d k) → Tight b (slot b d k) (chain k)

variable {s s' : FileStore (List UInt8) UInt8 (slots b)}

theorem length_contents (b : Bpb) (d : Disk) (chain : ℕ → List ℕ) (k : ℕ) :
    (contents b d chain k).length = (slot b d k).fileSize := by
  rw [contents, List.length_map, List.length_range]

theorem fileAt_eq_some_iff {f : File (List UInt8) UInt8} : fileAt b d chain k = some f ↔
    Live (slot b d k) ∧ f = ⟨(slot b d k).name, contents b d chain k⟩ := by
  rw [fileAt]
  split_ifs with hl
  · rw [Option.some_inj, eq_comm, and_iff_right hl]
  · exact iff_of_false nofun fun h => hl h.1

theorem fileAt_eq_none_iff : fileAt b d chain k = none ↔ ¬ Live (slot b d k) := by
  rw [fileAt]
  split_ifs with hl
  · exact iff_of_false nofun fun h => h hl
  · exact iff_of_true rfl hl

/-- What is read from a live entry. -/
theorem Layout.readChain_eq (h : Layout b d chain) (hk : k < slots b) (hl : Live (slot b d k)) :
    readChain b d (slot b d k).firstCluster (slot b d k).fileSize =
      some ((List.range (slot b d k).fileSize).map fun x => (x, fileByte b d (chain k) x)) := by
  obtain ⟨e, hchain, -⟩ := h.chains k hk hl
  exact Fat16.readChain_eq h.geometry hchain (h.enough k hk hl)

/-- The chains and the files other than `k` are kept. -/
theorem Keeps.fileAt_eq (hkeep : Keeps b d d' chain k) (h : Layout b d chain)
    (h' : Layout b d' chain') {j : ℕ} (hj : j < slots b) (hjk : j ≠ k) :
    (Live (slot b d j) → chain' j = chain j) ∧ fileAt b d' chain' j = fileAt b d chain j := by
  have hslot := hkeep.others j hj hjk
  by_cases hl : Live (slot b d j)
  · have hl' : Live (slot b d' j) := by rwa [hslot]
    obtain ⟨e, hchain, -⟩ := h.chains j hj hl
    have hchain' : chain' j = chain j :=
      h'.chain_unique hj hl' (by rw [hslot]; exact hchain.congr (hkeep.entry j hj hl hjk))
    have hread : readChain b d' (slot b d j).firstCluster (slot b d j).fileSize =
        readChain b d (slot b d j).firstCluster (slot b d j).fileSize :=
      readChain_congr hchain (hkeep.entry j hj hl hjk) (hkeep.data j hj hl hjk)
    have hread' := h'.readChain_eq hj hl'
    rw [hslot, hread, h.readChain_eq hj hl, hchain', Option.some_inj] at hread'
    have hcontents : contents b d' chain' j = contents b d chain j := by
      have hmap := congrArg (List.map Prod.snd) hread'
      rw [List.map_map, List.map_map] at hmap
      rw [contents, contents, hslot, hchain']
      exact hmap.symm
    exact ⟨fun _ => hchain', by rw [fileAt, fileAt, hslot, hcontents]⟩
  · refine ⟨fun h => absurd h hl, ?_⟩
    rw [fileAt_eq_none_iff.mpr hl, fileAt_eq_none_iff, hslot]
    exact hl

/-- A store follows the one slot that a call changes. -/
theorem Holds.update (h : Holds b d chain s) (hkeep : Keeps b d d' chain k)
    (h' : Layout b d' chain') (hk : k < slots b) (hself : s'.file ⟨k, hk⟩ = fileAt b d' chain' k)
    (hothers : ∀ j, j ≠ ⟨k, hk⟩ → s'.file j = s.file j)
    (htight : Live (slot b d' k) → Tight b (slot b d' k) (chain' k)) : Holds b d' chain' s' where
  toLayout := h'
  file := by
    intro j
    by_cases hjk : j = ⟨k, hk⟩
    · rw [hjk, hself]
    · have hne : j.val ≠ k := fun heq => hjk (Fin.ext heq)
      rw [hothers j hjk, h.file, (hkeep.fileAt_eq h.toLayout h' j.isLt hne).2]
  tight := by
    intro j hj hl
    by_cases hjk : j = k
    · rw [hjk] at hl ⊢
      exact htight hl
    · have hslot := hkeep.others j hj hjk
      rw [hslot] at hl ⊢
      rw [(hkeep.fileAt_eq h.toLayout h' hj hjk).1 hl]
      exact h.tight j hj hl

/-! ## The slot of a name -/

theorem Holds.find_eq_some_iff (h : Holds b d chain s) (hk : k < slots b) :
    s.find name = some ⟨k, hk⟩ ↔ Matches name (slot b d k) := by
  rw [FileStore.find_eq_some_iff]
  constructor
  · rintro ⟨f, hf, hname⟩
    rw [h.file, fileAt_eq_some_iff] at hf
    rw [hf.2] at hname
    exact ⟨hf.1, hname⟩
  · intro hm
    exact ⟨_, (h.file _).trans (fileAt_eq_some_iff.mpr ⟨hm.1, rfl⟩), hm.2⟩

theorem Holds.find_eq_none (h : Holds b d chain s)
    (hno : ∀ j < slots b, ¬ Matches name (slot b d j)) : s.find name = none := by
  cases hfind : s.find name with
  | none => rfl
  | some i => exact absurd ((h.find_eq_some_iff i.isLt).mp hfind) (hno i i.isLt)

theorem Holds.file_eq_none_iff (h : Holds b d chain s) (k : Fin (slots b)) :
    s.file k = none ↔ ¬ Live (slot b d k) := by
  rw [h.file, fileAt_eq_none_iff]

/-- A write takes the slot that the store gives it. -/
theorem Holds.slotFor_eq (h : Holds b d chain s) (target : Target b d chain name k cs) :
    s.slotFor name = some ⟨k, target.lt⟩ := by
  rw [FileStore.slotFor]
  cases target with
  | existing hk hm => rw [(h.find_eq_some_iff hk).mpr hm, Option.some_or]
  | fresh hk hfree hlive hno =>
      rw [h.find_eq_none hno, Option.none_or, FileStore.firstFree_eq_some_iff]
      refine ⟨(h.file_eq_none_iff _).mpr hfree, ?_⟩
      intro j hj hnone
      exact (h.file_eq_none_iff j).mp hnone (hlive j hj)

theorem Holds.slotFor_eq_none (h : Holds b d chain s) (hlive : ∀ j < slots b, Live (slot b d j))
    (hno : ∀ j < slots b, ¬ Matches name (slot b d j)) : s.slotFor name = none := by
  rw [FileStore.slotFor, h.find_eq_none hno, Option.none_or, FileStore.firstFree_eq_none_iff]
  intro j hnone
  exact (h.file_eq_none_iff j).mp hnone (hlive j j.isLt)

/-! ## The space -/

/-- The clusters of a slot. -/
def ownedBy (b : Bpb) (d : Disk) (chain : ℕ → List ℕ) (k : ℕ) : Finset ℕ :=
  if Live (slot b d k) then (chain k).toFinset else ∅

theorem mem_ownedBy {c : ℕ} : c ∈ ownedBy b d chain k ↔ Live (slot b d k) ∧ c ∈ chain k := by
  rw [ownedBy]
  split_ifs with hl
  · rw [List.mem_toFinset, and_iff_right hl]
  · exact iff_of_false (Finset.notMem_empty c) fun h => hl h.1

theorem Holds.card_ownedBy (h : Holds b d chain s) (k : Fin (slots b)) :
    (ownedBy b d chain k).card = (s.file k).elim 0 fun f => need b f.data.length := by
  rw [h.file, ownedBy, fileAt]
  split_ifs with hl
  · obtain ⟨e, hchain, -⟩ := h.chains k k.isLt hl
    rw [List.toFinset_card_of_nodup hchain.nodup, (h.tight k k.isLt hl).length, Option.elim_some,
      length_contents]
  · rfl

/-- The clusters that a write may take are those that no other file has. -/
theorem Holds.card_available (h : Holds b d chain s) (target : Target b d chain name k cs) :
    (available b d cs).card + s.usedBeside (need b) ⟨k, target.lt⟩ = clusters b - 2 := by
  have hused : s.usedBeside (need b) ⟨k, target.lt⟩ =
      ((Finset.univ.erase ⟨k, target.lt⟩).biUnion fun j : Fin (slots b) =>
        ownedBy b d chain j).card := by
    rw [Finset.card_biUnion]
    · exact Finset.sum_congr rfl fun j _ => (h.card_ownedBy j).symm
    · intro i _ j _ hij
      refine Finset.disjoint_left.mpr ?_
      intro c hci hcj
      rw [mem_ownedBy] at hci hcj
      exact h.disjoint i i.isLt j j.isLt hci.1 hcj.1 (fun heq => hij (Fin.ext heq)) c hci.2 hcj.2
  have hdisj : Disjoint (available b d cs)
      ((Finset.univ.erase ⟨k, target.lt⟩).biUnion fun j : Fin (slots b) => ownedBy b d chain j) := by
    refine Finset.disjoint_left.mpr ?_
    intro c hc hmem
    obtain ⟨j, hj, hcj⟩ := Finset.mem_biUnion.mp hmem
    rw [mem_ownedBy] at hcj
    have hjk : j.val ≠ k := fun heq => (Finset.mem_erase.mp hj).1 (Fin.ext heq)
    exact h.toSound.not_available target j.isLt hcj.1 hjk hcj.2 hc
  rw [hused, ← Finset.card_union_of_disjoint hdisj, ← Nat.card_Ico]
  congr 1
  ext c
  rw [Finset.mem_union, Finset.mem_biUnion, mem_available, Finset.mem_Ico]
  constructor
  · rintro (⟨hrange, -⟩ | ⟨j, -, hcj⟩)
    · exact hrange
    · rw [mem_ownedBy] at hcj
      exact ⟨h.toSound.two_le j.isLt hcj.1 hcj.2, (h.tight j j.isLt hcj.1).scanned c hcj.2⟩
  · intro hrange
    by_cases havail : fat16GetFatEntry b d c = 0 ∨ c ∈ cs
    · exact .inl ⟨hrange, havail⟩
    · rw [not_or] at havail
      obtain ⟨j, hj, hl, hc⟩ := h.owned c hrange.1 (by omega) havail.1
      refine .inr ⟨⟨j, hj⟩, Finset.mem_erase.mpr ⟨?_, Finset.mem_univ _⟩, mem_ownedBy.mpr ⟨hl, hc⟩⟩
      intro heq
      have hjk : j = k := congrArg Fin.val heq
      rw [hjk] at hl hc
      exact havail.2 (target.mem_of_live hl hc)

/-! ## Calls -/

variable {filename : List UInt8}

/-- The first `size` bytes of a buffer. -/
def bytesOf (buffer : ℕ → UInt8) (size : ℕ) : List UInt8 := (List.range size).map buffer

/-- A write to the volume against a write to the store. -/
def Writes (b : Bpb) (s : FileStore (List UInt8) UInt8 (slots b)) (run : WriteExit × Disk) :
    FileStore.Put (List UInt8) UInt8 (slots b) → Prop
  | .done s' => run.1 = .done ∧ ∃ chain, Holds b run.2 chain s'
  | .refused => (run.1 = .rootFull ∨ run.1 = .diskFull) ∧ ∃ chain, Holds b run.2 chain s
  | .torn => run.1 = .diskFull ∧ ¬ Consistent b run.2

/-- The clusters that a write may take decide whether the store has room for it. -/
theorem Holds.room_iff (h : Holds b d chain s) (target : Target b d chain name k cs)
    (buffer : ℕ → UInt8) (size : ℕ) :
    s.usedBeside (need b) ⟨k, target.lt⟩ + need b (bytesOf buffer size).length ≤ clusters b - 2 ↔
      need b size ≤ (available b d cs).card := by
  have := h.card_available target
  rw [bytesOf, List.length_map, List.length_range]
  omega

/-- A completed write stores the file. -/
theorem Holds.write_done (h : Holds b d chain s) (hname : filename.head? ≠ some 0xE5) {r : Disk}
    (target : Target b d chain (formatFatName filename) k cs)
    (hw : WriteCase b d chain (formatFatName filename) buffer size (.done, r))
    (hkeep : Keeps b d r chain k) (hlen : l.length = need b size)
    (hl : ∀ c ∈ l, c ∈ available b d cs) (new : ClusterChain b r (l.headD 0) l 0xFFFF)
    (stored : slot b r k = newEntry (formatFatName filename) (l.headD 0) size)
    (data : ∀ j c, l[j]? = some c → ∀ i < b.spc,
      r (b.clusterSector c + i) = chunk buffer size (clusterBytes b * j + 512 * i)) :
    ∃ chain, Holds b r chain (s.store (formatFatName filename) (bytesOf buffer size)
      ⟨k, target.lt⟩ (h.slotFor_eq target)) := by
  obtain ⟨k', hk', l', hlayout, hstored', -⟩ := hw.layout_done h.toLayout
    (headD_formatFatName_ne_zero filename) (headD_formatFatName_ne_deleted hname)
  -- the layout can only be that of the slot and the chain that were written
  have hkk : k' = k := by
    by_contra hne
    rw [hkeep.others k' hk' hne] at hstored'
    refine target.name_ne h.dir hk' ?_ hne (by rw [hstored']; rfl)
    rw [hstored']
    exact live_newEntry hname _ _
  subst hkk
  have hlive : Live (slot b r k') := by
    rw [stored]
    exact live_newEntry hname _ _
  have hchain : Function.update chain k' l' k' = l :=
    hlayout.chain_unique hk' hlive (by rw [stored]; exact new)
  have hsize : (slot b r k').fileSize = size := by rw [stored]; rfl
  refine ⟨_, h.update hkeep hlayout hk' ?_ ?_ ?_⟩
  · rw [FileStore.store_file_self, eq_comm, fileAt_eq_some_iff]
    refine ⟨hlive, ?_⟩
    have hcontents : contents b r (Function.update chain k' l') k' = bytesOf buffer size := by
      rw [contents, hchain, hsize, bytesOf]
      refine List.map_congr_left ?_
      intro y hy
      exact fileByte_of_data h.geometry (by rw [hlen]; exact size_le_need_mul h.geometry) data
        (List.mem_range.mp hy)
    rw [hcontents, stored]
    rfl
  · intro j hj
    exact FileStore.store_file_ne _ hj
  · intro _
    rw [hchain]
    refine ⟨by rw [hsize]; exact hlen, ?_, by rw [stored]; rfl⟩
    intro c hc
    exact (mem_available.mp (hl c hc)).1.2

theorem Holds.write (h : Holds b d chain s) (hname : filename.head? ≠ some 0xE5)
    (buffer : ℕ → UInt8) (size : UInt32) :
    Writes b s (fat16WriteRun b d filename buffer size)
      (s.put (need b) (clusters b - 2) (formatFatName filename) (bytesOf buffer size.toNat)) := by
  have hw := fat16WriteRun_cases h.toSound filename buffer size
  have hdangling : ∀ k < slots b, Matches (formatFatName filename) (slot b d k) → chain k ≠ [] →
      (fat16WriteRun b d filename buffer size).1 = .diskFull →
      ¬ Consistent b (fat16WriteRun b d filename buffer size).2 := by
    intro k hk hm hne hexit
    obtain ⟨e, hchain, -⟩ := h.chains k hk hm.1
    exact overwrite_dangling h.toSound hk hm hchain hne hexit
  have hcase := hw
  generalize fat16WriteRun b d filename buffer size = run at hw hdangling hcase ⊢
  cases hw with
  | rootFull hlive hno =>
      rw [FileStore.put_of_none (h.slotFor_eq_none hlive hno)]
      exact ⟨.inl rfl, chain, h⟩
  | done k cs l r target hlen hcard hl new entry outside mirror stored others data =>
      rw [FileStore.put_of_some (h.slotFor_eq target), if_pos ((h.room_iff target _ _).mpr hcard)]
      exact ⟨rfl, h.write_done hname target hcase (h.toSound.keeps target hl entry outside others) hlen
        hl new stored data⟩
  | diskFull k cs l r target hcard hl entry outside mirror =>
      have hroom := (h.room_iff target buffer size.toNat).not.mpr (Nat.not_le.mpr hcard)
      rw [FileStore.put_of_some (h.slotFor_eq target), if_neg hroom]
      cases target with
      | existing hk hm =>
          rw [(h.find_eq_some_iff hk).mpr hm]
          refine ⟨rfl, hdangling k hk hm ?_ rfl⟩
          intro hnil
          have hlength := (h.tight k hk hm.1).length
          have hneed : 1 ≤ need b (slot b d k).fileSize := le_max_left ..
          rw [hnil, List.length_nil] at hlength
          omega
      | fresh hk hfree hlive hno =>
          have target : Target b d chain (formatFatName filename) k [] := .fresh k hk hfree hlive hno
          have hslot : ∀ j < slots b, slot b r j = slot b d j := fun j hj => slot_of_diskFull outside hj
          have hentry : ∀ x < 256 * b.tableSize, fat16GetFatEntry b r x = fat16GetFatEntry b d x := by
            intro x hx
            simpa using entry x hx
          have hkeep := h.toSound.keeps target hl (fun x hx _ => entry x hx)
            (fun s hs _ hout => outside s hs hout) (fun j hj _ => hslot j hj)
          rw [h.find_eq_none hno]
          refine ⟨.inr rfl, chain, h.update hkeep (h.of_same hentry hslot (mirror h.mirror)) hk ?_
            (fun _ _ => rfl) ?_⟩
          · rw [(h.file_eq_none_iff _).mpr hfree, eq_comm, fileAt_eq_none_iff, hslot k hk]
            exact hfree
          · intro hl'
            rw [hslot k hk] at hl'
            exact absurd hl' hfree

theorem Holds.isFile_iff (h : Holds b d chain s) (hk : k < slots b) :
    IsFile name (slot b d k) ↔ Matches name (slot b d k) :=
  ⟨fun hf => ⟨hf.1, hf.2.1⟩, fun hm => ⟨hm.1, hm.2, h.plain k hk hm.1⟩⟩

theorem Holds.delete (h : Holds b d chain s) (filename : List UInt8) :
    (fat16DeleteFile b d filename).1 = (if (s.find (formatFatName filename)).isSome then 1 else 0) ∧
      ∃ chain, Holds b (fat16DeleteFile b d filename).2 chain (s.delete (formatFatName filename)) := by
  have hd := fat16DeleteFile_cases h.toSound filename
  obtain ⟨chain', hlayout⟩ := hd.consistent h.toLayout
  generalize fat16DeleteFile b d filename = run at hd hlayout ⊢
  cases hd with
  | missing hno =>
      have hnone := h.find_eq_none fun j hj hm => hno j hj ((h.isFile_iff hj).mpr hm)
      rw [FileStore.delete, hnone]
      exact ⟨rfl, chain, h⟩
  | deleted k r hk hf entry outside mirror mark others =>
      have target : Target b d chain (formatFatName filename) k (chain k) :=
        .existing k hk ⟨hf.1, hf.2.1⟩
      have hkeep := h.toSound.keeps target (l := []) (by simp) (fun x hx _ => entry x hx)
        (fun s hs hsec _ => outside s hs hsec) others
      have hdead := not_live_of_deleted mark
      rw [FileStore.delete, (h.find_eq_some_iff hk).mpr ⟨hf.1, hf.2.1⟩]
      refine ⟨rfl, chain', h.update hkeep hlayout hk ?_ ?_ ?_⟩
      · rw [Option.elim_some, FileStore.erase_file_self, eq_comm, fileAt_eq_none_iff]
        exact hdead
      · intro j hj
        exact FileStore.erase_file_ne s hj
      · intro hl
        exact absurd hl hdead

theorem Holds.lookup_eq (h : Holds b d chain s) (name : List UInt8) :
    lookup b d name = (s.find name).map Fin.val := by
  cases hfind : s.find name with
  | none =>
      rw [Option.map_none, Option.eq_none_iff_forall_ne_some]
      intro k hk
      obtain ⟨hlt, hf⟩ := h.dir.lookup_eq_some_iff.mp hk
      rw [(h.find_eq_some_iff hlt).mpr ((h.isFile_iff hlt).mp hf)] at hfind
      cases hfind
  | some i =>
      rw [Option.map_some, h.dir.lookup_eq_some_iff, h.isFile_iff i.isLt]
      exact ⟨i.isLt, (h.find_eq_some_iff i.isLt).mp hfind⟩

/-- The contents of the slot of a name. -/
theorem Holds.get_of_find (h : Holds b d chain s) {i : Fin (slots b)} (hfind : s.find name = some i) :
    s.get name = some (contents b d chain i) := by
  have hl := ((h.find_eq_some_iff i.isLt).mp hfind).1
  rw [FileStore.get, hfind, Option.bind_some, h.file, fileAt, if_pos hl, Option.map_some]

theorem Holds.getFileSize (h : Holds b d chain s) (filename : List UInt8) :
    fat16GetFileSize b d filename = (s.get (formatFatName filename)).elim 0 List.length := by
  rw [fat16GetFileSize_eq, h.lookup_eq]
  cases hfind : s.find (formatFatName filename) with
  | none => rw [FileStore.get, hfind]; rfl
  | some i =>
      rw [h.get_of_find hfind, Option.map_some, Option.elim_some, Option.elim_some, length_contents]

/-- What the reader returns and stores for the contents. -/
def readAnswer (data : List UInt8) : ℤ × List Store :=
  (toInt32 data.length, (List.range data.length).map fun x => (x, data.getD x 0))

theorem Holds.read (h : Holds b d chain s) (filename : List UInt8) :
    fat16ReadFile b d filename =
      some ((s.get (formatFatName filename)).elim (0, []) readAnswer) := by
  rw [fat16ReadFile_eq, h.lookup_eq]
  cases hfind : s.find (formatFatName filename) with
  | none => rw [FileStore.get, hfind]; rfl
  | some i =>
      have hl := ((h.find_eq_some_iff i.isLt).mp hfind).1
      rw [h.get_of_find hfind, Option.map_some, Option.elim_some, Option.elim_some,
        h.readChain_eq i.isLt hl, Option.map_some, readAnswer, length_contents]
      congr 2
      refine List.map_congr_left ?_
      intro x hx
      rw [contents, List.getD_eq_getElem?_getD, List.getElem?_map,
        List.getElem?_range (List.mem_range.mp hx)]
      rfl

/-! ## The listing -/

/-- The entry of a file, as far as it is printed. -/
def entryOf (f : File (List UInt8) UInt8) : DirEntry := ⟨f.key, 0x20, 0, f.data.length⟩

/-- What `fat16_dir` prints for the files of a store. -/
def storeDir (s : FileStore (List UInt8) UInt8 (slots b)) : List Op :=
  .print (kernelText "\n Pasta do HD (FAT16):\n\n") :: (s.files.flatMap (fun f => dirLine (entryOf f)) ++
    ((if s.files.length = 0 then
        [.print (kernelText "Nenhum arquivo encontrado no HD.\n")] else []) ++
      [.print (kernelText "\n")]))

/-- A directory of plain files is printed in full. -/
theorem dirLoop_eq_filter {es : List DirEntry} (hended : es.Pairwise fun x y => x.mark = 0 → ¬ Live y)
    (hplain : ∀ e ∈ es, Live e → e.attributes = 0x20) : dirLoop es = es.filter fun e => Live e := by
  induction es with
  | nil => rfl
  | cons e es ih =>
      rw [List.pairwise_cons] at hended
      rw [List.forall_mem_cons] at hplain
      have hrest := ih hended.2 hplain.2
      rw [dirLoop]
      by_cases hend : e.mark = 0
      · rw [if_pos hend, eq_comm, List.filter_eq_nil_iff]
        intro x hx
        rw [List.mem_cons] at hx
        rcases hx with rfl | hx
        · simp [Live, hend]
        · simpa using hended.1 x hx hend
      · rw [if_neg hend]
        by_cases hdel : e.mark = 0xE5
        · rw [if_pos hdel, hrest, List.filter_cons_of_neg (by simp [Live, hdel])]
        · have hl : Live e := ⟨hend, hdel⟩
          have hattr : ¬ e.attributes = 0x0F := by
            rw [hplain.1 hl]
            decide
          rw [if_neg hdel, if_neg hattr, hrest, List.filter_cons_of_pos (by simpa using hl)]

theorem Holds.listed_eq (h : Holds b d chain s) :
    listed b d = ((List.range (slots b)).map (slot b d)).filter fun e => Live e := by
  rw [listed, rootEntries_eq]
  refine dirLoop_eq_filter ?_ ?_
  · rw [List.pairwise_map]
    refine List.Pairwise.imp_of_mem ?_ List.pairwise_lt_range
    intro i j _ hj hij hmark
    exact h.dir.ended i j hij (List.mem_range.mp hj) hmark
  · intro e he hl
    obtain ⟨k, hk, rfl⟩ := List.mem_map.mp he
    exact (h.tight k (List.mem_range.mp hk) hl).archive

/-- The listed entries are those of the files of the store. -/
theorem Holds.dirLines (h : Holds b d chain s) :
    (listed b d).map dirLine = s.files.map fun f => dirLine (entryOf f) := by
  have hrange : List.range (slots b) = (List.finRange (slots b)).map Fin.val := by simp
  rw [h.listed_eq, hrange, List.map_map, FileStore.files]
  induction List.finRange (slots b) with
  | nil => rfl
  | cons k ks ih =>
      by_cases hl : Live (slot b d k)
      · have hfile : s.file k = some ⟨(slot b d k).name, contents b d chain k⟩ :=
          (h.file k).trans (if_pos hl)
        have hline : dirLine (slot b d k) =
            dirLine (entryOf ⟨(slot b d k).name, contents b d chain k⟩) := by
          rw [dirLine, dirLine, entryOf, length_contents, (h.tight k k.isLt hl).archive]
          rfl
        rw [List.map_cons, List.filter_cons_of_pos (by simpa using hl), List.filterMap_cons_some hfile,
          List.map_cons, List.map_cons, ih]
        exact congrArg (· :: _) hline
      · rw [List.map_cons, List.filter_cons_of_neg (by simpa using hl),
          List.filterMap_cons_none ((h.file_eq_none_iff k).mpr hl), ih]

theorem Holds.dir_eq (h : Holds b d chain s) : fat16Dir b d = storeDir s := by
  have hlines := h.dirLines
  have hlength : (listed b d).length = s.files.length := by
    have := congrArg List.length hlines
    rwa [List.length_map, List.length_map] at this
  rw [fat16Dir, storeDir, hlength, List.flatMap_def, List.flatMap_def, hlines]

/-! ## Runs -/

/-- A call of the driver. -/
inductive Request where
  | write (filename : List UInt8) (buffer : ℕ → UInt8) (size : UInt32)
  | delete (filename : List UInt8)
  | size (filename : List UInt8)
  | read (filename : List UInt8)
  | dir

deriving instance DecidableEq for Op

/-- What the caller sees of a call. -/
inductive Answer where
  | wrote (result : Option ℤ)
  | deleted (result : ℤ)
  | size (bytes : ℕ)
  | read (result : Option (ℤ × List Store))
  | printed (ops : List Op)
  deriving DecidableEq

/-- The call on the volume. -/
def Request.perform (b : Bpb) (d : Disk) : Request → Answer × Disk
  | .write filename buffer size =>
      let (result, d) := fat16WriteFile b d filename buffer size
      (.wrote result, d)
  | .delete filename =>
      let (result, d) := fat16DeleteFile b d filename
      (.deleted result, d)
  | .size filename => (.size (fat16GetFileSize b d filename), d)
  | .read filename => (.read (fat16ReadFile b d filename), d)
  | .dir => (.printed (fat16Dir b d), d)

/-- The call on the store, or nothing if it tears a file. -/
def Request.ideal (s : FileStore (List UInt8) UInt8 (slots b)) :
    Request → Option (Answer × FileStore (List UInt8) UInt8 (slots b))
  | .write filename buffer size =>
      match s.put (need b) (clusters b - 2) (formatFatName filename) (bytesOf buffer size.toNat) with
      | .done s' => some (.wrote (some (toInt32 size.toNat)), s')
      | .refused => some (.wrote (some 0), s)
      | .torn => none
  | .delete filename =>
      some (.deleted (if (s.find (formatFatName filename)).isSome then 1 else 0),
        s.delete (formatFatName filename))
  | .size filename => some (.size ((s.get (formatFatName filename)).elim 0 List.length), s)
  | .read filename =>
      some (.read (some ((s.get (formatFatName filename)).elim (0, []) readAnswer)), s)
  | .dir => some (.printed (storeDir s), s)

def performAll (b : Bpb) : Disk → List Request → List Answer × Disk
  | d, [] => ([], d)
  | d, r :: rs =>
      let (answer, d) := r.perform b d
      let (answers, d) := performAll b d rs
      (answer :: answers, d)

def idealAll : FileStore (List UInt8) UInt8 (slots b) → List Request →
    Option (List Answer × FileStore (List UInt8) UInt8 (slots b))
  | s, [] => some ([], s)
  | s, r :: rs =>
      (r.ideal s).bind fun (answer, s) =>
        (idealAll s rs).map fun (answers, s) => (answer :: answers, s)

/-- A written name does not start with the deletion mark. -/
def Request.Named : Request → Prop
  | .write filename _ _ => filename.head? ≠ some 0xE5
  | _ => True

/-- A call on the volume against one on the store. -/
def Request.Follows (b : Bpb) (d : Disk) (r : Request) :
    Option (Answer × FileStore (List UInt8) UInt8 (slots b)) → Prop
  | some (answer, s) => (r.perform b d).1 = answer ∧ ∃ chain, Holds b (r.perform b d).2 chain s
  | none => ¬ Consistent b (r.perform b d).2

/-- A call on the volume gives the answer of the store. A call that tears a file leaves the volume
inconsistent. -/
theorem Holds.perform (h : Holds b d chain s) {r : Request} (hname : r.Named) :
    r.Follows b d (r.ideal s) := by
  cases r with
  | write filename buffer size =>
      have hw := h.write hname buffer size
      have hresult : ∀ exit, (fat16WriteRun b d filename buffer size).1 = exit →
          ((Request.write filename buffer size).perform b d).1 = .wrote (exit.result size.toNat) :=
        fun _ hexit => congrArg (fun e => Answer.wrote (WriteExit.result size.toNat e)) hexit
      cases hput : s.put (need b) (clusters b - 2) (formatFatName filename)
          (bytesOf buffer size.toNat) with
      | done s' =>
          rw [hput] at hw
          rw [Request.ideal, hput]
          exact ⟨hresult _ hw.1, hw.2⟩
      | refused =>
          rw [hput] at hw
          rw [Request.ideal, hput]
          exact ⟨hw.1.elim (hresult _) (hresult _), hw.2⟩
      | torn =>
          rw [hput] at hw
          rw [Request.ideal, hput]
          exact hw.2
  | delete filename =>
      obtain ⟨hresult, hholds⟩ := h.delete filename
      exact ⟨congrArg Answer.deleted hresult, hholds⟩
  | size filename => exact ⟨congrArg Answer.size (h.getFileSize filename), chain, h⟩
  | read filename => exact ⟨congrArg Answer.read (h.read filename), chain, h⟩
  | dir => exact ⟨congrArg Answer.printed h.dir_eq, chain, h⟩

/-- A run of the volume against a run of the store. -/
def Follows (b : Bpb) (d : Disk) (requests : List Request) :
    Option (List Answer × FileStore (List UInt8) UInt8 (slots b)) → Prop
  | some (answers, s) =>
      (performAll b d requests).1 = answers ∧
        (∀ n, Consistent b (performAll b d (requests.take n)).2) ∧
          ∃ chain, Holds b (performAll b d requests).2 chain s
  | none => ∃ n, ¬ Consistent b (performAll b d (requests.take n)).2

theorem Holds.performAll (h : Holds b d chain s) (requests : List Request)
    (hnames : ∀ r ∈ requests, r.Named) : Follows b d requests (idealAll s requests) := by
  induction requests generalizing d chain s with
  | nil =>
      refine ⟨rfl, fun n => ?_, chain, h⟩
      rw [List.take_nil]
      exact ⟨chain, h.toLayout⟩
  | cons r rs ih =>
      rw [List.forall_mem_cons] at hnames
      have hstep := h.perform hnames.1
      cases hideal : r.ideal s with
      | none =>
          rw [hideal] at hstep
          rw [idealAll, hideal]
          exact ⟨1, hstep⟩
      | some out =>
          obtain ⟨answer, s'⟩ := out
          rw [hideal] at hstep
          obtain ⟨hanswer, chain', hholds⟩ := hstep
          have hrest := ih hholds hnames.2
          have hcons : idealAll s (r :: rs) =
              (idealAll s' rs).map fun out => (answer :: out.1, out.2) := by
            rw [idealAll, hideal]
            rfl
          rw [hcons]
          cases hall : idealAll s' rs with
          | none =>
              rw [hall] at hrest
              obtain ⟨n, hn⟩ := hrest
              exact ⟨n + 1, hn⟩
          | some out =>
              obtain ⟨answers, t⟩ := out
              rw [hall] at hrest
              obtain ⟨hanswers, hconsistent, hlast⟩ := hrest
              refine ⟨by rw [← hanswer, ← hanswers]; rfl, fun n => ?_, hlast⟩
              cases n with
              | zero => exact ⟨chain, h.toLayout⟩
              | succ n => exact hconsistent n

/-- A volume without files, as it is after formatting. -/
structure Formatted (b : Bpb) (d : Disk) : Prop where
  geometry : Geometry b
  mirror : Mirror b d
  unused : ∀ k < slots b, ¬ Live (slot b d k)
  free : ∀ c, 2 ≤ c → c ≤ clusters b + 1 → fat16GetFatEntry b d c = 0

theorem Formatted.holds (h : Formatted b d) : Holds b d (fun _ => []) FileStore.empty where
  geometry := h.geometry
  dir :=
    ⟨fun _ j _ hj _ => h.unused j hj, fun i _ hi _ hl => absurd hl (h.unused i hi)⟩
  chains k hk hl := absurd hl (h.unused k hk)
  range k hk hl := absurd hl (h.unused k hk)
  disjoint i hi _ _ hl := absurd hl (h.unused i hi)
  mirror := h.mirror
  plain k hk hl := absurd hl (h.unused k hk)
  enough k hk hl := absurd hl (h.unused k hk)
  owned c h₁ h₂ hne := absurd (h.free c h₁ h₂) hne
  file k := (fileAt_eq_none_iff.mpr (h.unused k k.isLt)).symm
  tight k hk hl := absurd hl (h.unused k hk)

/-- From a formatted volume on, all that callers see of any sequence of calls is what they see
of a file store with a slot for every directory entry and a block for every cluster that is
scanned, until an overwrite does not fit; that leaves the volume inconsistent. -/
theorem volume_refines_store (h : Formatted b d) (requests : List Request)
    (hnames : ∀ r ∈ requests, r.Named) :
    Follows b d requests (idealAll FileStore.empty requests) := h.holds.performAll requests hnames

theorem blankDisk_formatted : Formatted (smallBpb 6) blankDisk :=
  ⟨smallBpb_six, fun _ _ _ => rfl, fun k _ => slot_blankDisk_not_live _ k,
    fun c _ _ => fatEntry_blankDisk _ c⟩

/-- A file is written where there is room, a second one is refused, and the first one is read and
deleted. -/
theorem volume_refines_store_small :
    (performAll (smallBpb 6) blankDisk
      [.write [0x41] (fun _ => 7) 2, .write [0x42] (fun _ => 8) 1, .read [0x41], .delete [0x41],
        .size [0x41]]).1 =
      [.wrote (some 2), .wrote (some 0), .read (some (2, [(0, 7), (1, 7)])), .deleted 1, .size 0] := by
  have hfollows := volume_refines_store blankDisk_formatted
    [.write [0x41] (fun _ => 7) 2, .write [0x42] (fun _ => 8) 1, .read [0x41], .delete [0x41],
      .size [0x41]] (by simp [Request.Named])
  have hanswers : (idealAll (b := smallBpb 6) FileStore.empty
      [.write [0x41] (fun _ => 7) 2, .write [0x42] (fun _ => 8) 1, .read [0x41], .delete [0x41],
        .size [0x41]]).map Prod.fst =
      some [.wrote (some 2), .wrote (some 0), .read (some (2, [(0, 7), (1, 7)])), .deleted 1,
        .size 0] := by
    decide +kernel
  obtain ⟨⟨answers, s⟩, hs, heq⟩ := Option.map_eq_some_iff.mp hanswers
  rw [hs] at hfollows
  exact hfollows.1.trans heq

/-! ## What a file holds -/

/-- The contents under a name after a call with the given answer. -/
def settle (name : List UInt8) (data : Option (List UInt8)) : Request → Answer → Option (List UInt8)
  | .write filename buffer size, .wrote (some result) =>
      if result ≠ 0 ∧ formatFatName filename = name then some (bytesOf buffer size.toNat) else data
  | .delete filename, _ => if formatFatName filename = name then none else data
  | _, _ => data

/-- The contents under a name after some calls, as the answers tell. -/
def lastWritten (name : List UInt8) : Option (List UInt8) → List Request → List Answer →
    Option (List UInt8)
  | data, r :: rs, answer :: answers => lastWritten name (settle name data r answer) rs answers
  | data, _, _ => data

/-- What is written is not empty. -/
def Request.Filled : Request → Prop
  | .write _ _ size => size ≠ 0
  | _ => True

theorem toInt32_ne_zero {size : UInt32} (h : size ≠ 0) : toInt32 size.toNat ≠ 0 := by
  intro heq
  have hdvd : ((2 ^ 32 : ℕ) : ℤ) ∣ size.toNat := Int.dvd_iff_bmod_eq_zero.mpr heq
  have hlt := UInt32.toNat_lt size
  refine h (UInt32.toNat_inj.mp ?_)
  rw [Int.natCast_dvd_natCast] at hdvd
  exact Nat.eq_zero_of_dvd_of_lt hdvd hlt

theorem get_of_ideal {r : Request} {answer : Answer} (hfilled : r.Filled)
    (h : r.ideal s = some (answer, s')) (name : List UInt8) :
    s'.get name = settle name (s.get name) r answer := by
  cases r with
  | write filename buffer size =>
      rw [Request.ideal] at h
      cases hput : s.put (need b) (clusters b - 2) (formatFatName filename)
          (bytesOf buffer size.toNat) with
      | done t =>
          rw [hput] at h
          cases h
          obtain ⟨i, hi, rfl⟩ := FileStore.exists_store_of_put hput
          rw [settle]
          by_cases hname : formatFatName filename = name
          · rw [if_pos ⟨toInt32_ne_zero hfilled, hname⟩, ← hname, FileStore.get_store_self]
          · rw [if_neg fun h => hname h.2]
            exact FileStore.get_store_ne hi fun heq => hname heq.symm
      | refused =>
          rw [hput] at h
          cases h
          rw [settle, if_neg fun h => h.1 rfl]
      | torn =>
          rw [hput] at h
          cases h
  | delete filename =>
      cases h
      rw [settle]
      split_ifs with hname
      · rw [← hname, FileStore.get_delete_self]
      · exact FileStore.get_delete_ne fun heq => hname heq.symm
  | size filename => cases h; rfl
  | read filename => cases h; rfl
  | dir => cases h; rfl

theorem get_of_idealAll {requests : List Request} {answers : List Answer}
    (hfilled : ∀ r ∈ requests, r.Filled) (h : idealAll s requests = some (answers, s'))
    (name : List UInt8) : s'.get name = lastWritten name (s.get name) requests answers := by
  induction requests generalizing s answers with
  | nil => cases h; rfl
  | cons r rs ih =>
      rw [List.forall_mem_cons] at hfilled
      rw [idealAll, Option.bind_eq_some_iff] at h
      obtain ⟨⟨answer, t⟩, hideal, hrest⟩ := h
      obtain ⟨⟨answers', t'⟩, hall, heq⟩ := Option.map_eq_some_iff.mp hrest
      cases heq
      rw [lastWritten, ih hfilled.2 hall, get_of_ideal hfilled.1 hideal]

/-- While the volume stays consistent, what is read under a name is what the last call wrote there
of those that reported a write or deleted the name, whatever else has been called. -/
theorem read_last_written (h : Formatted b d) {requests : List Request}
    (hnames : ∀ r ∈ requests, r.Named) (hfilled : ∀ r ∈ requests, r.Filled)
    (hconsistent : ∀ n, Consistent b (performAll b d (requests.take n)).2) (filename : List UInt8) :
    fat16ReadFile b (performAll b d requests).2 filename =
      some ((lastWritten (formatFatName filename) none requests
        (performAll b d requests).1).elim (0, []) readAnswer) := by
  have hrun := h.holds.performAll requests hnames
  cases hideal : idealAll FileStore.empty requests with
  | none =>
      rw [hideal] at hrun
      obtain ⟨n, hn⟩ := hrun
      exact absurd (hconsistent n) hn
  | some out =>
      obtain ⟨answers, s⟩ := out
      rw [hideal] at hrun
      obtain ⟨hanswers, -, chain, hholds⟩ := hrun
      have hempty : (FileStore.empty : FileStore (List UInt8) UInt8 (slots b)).get
          (formatFatName filename) = none := by
        rw [Option.eq_none_iff_forall_ne_some]
        intro data hdata
        obtain ⟨i, hi⟩ := FileStore.get_eq_some_iff.mp hdata
        cases hi
      rw [hanswers, hholds.read, get_of_idealAll hfilled hideal, hempty]

/-- A file stays as it is while another one is written and deleted. -/
theorem read_last_written_small :
    fat16ReadFile (smallBpb 6)
        (performAll (smallBpb 6) blankDisk
          [.write [0x41] (fun _ => 7) 2, .write [0x42] (fun _ => 8) 1, .delete [0x42]]).2 [0x61] =
      some (2, [(0, 7), (1, 7)]) := by
  have hrun := blankDisk_formatted.holds.performAll
    [.write [0x41] (fun _ => 7) 2, .write [0x42] (fun _ => 8) 1, .delete [0x42]]
    (by simp [Request.Named])
  have hanswers : (idealAll (b := smallBpb 6) FileStore.empty
      [.write [0x41] (fun _ => 7) 2, .write [0x42] (fun _ => 8) 1, .delete [0x42]]).map Prod.fst =
      some [.wrote (some 2), .wrote (some 0), .deleted 0] := by
    decide +kernel
  obtain ⟨⟨answers, s⟩, hs, rfl⟩ := Option.map_eq_some_iff.mp hanswers
  rw [hs] at hrun
  have hnames : ∀ r ∈ [Request.write [0x41] (fun _ => 7) 2, .write [0x42] (fun _ => 8) 1,
      .delete [0x42]], r.Named := by simp [Request.Named]
  have hread := read_last_written blankDisk_formatted hnames (by simp [Request.Filled]) hrun.2.1 [0x61]
  rw [hread, hrun.1]
  decide +kernel

end LispDos.Fat16
